import YwStorage.WorkerPool.Ring
import YwStorage.Lib.Run

/-!
The pool works its ring as a queue, as long as no compare-and-swap succeeds on a word that has gone
round the ring since the thread looked at it.
-/
namespace YwStorage.WorkerPool
open Lts

variable {π F A : Type*} {n : ℕ}

/-- The task that a thread is putting into the ring. -/
def Producer.pending : Producer F A → Option (Bool × Task F A × ℕ)
  | .putFunc x p => some (false, x, p)
  | .putArg x p => some (true, x, p)
  | _ => none

/-- The task that a worker is taking out of the ring. -/
def Worker.taken : Worker F A → Option (Bool × Task F A × ℕ)
  | .clearFunc p x => some (false, x, p)
  | .advance p x => some (true, x, p)
  | _ => none

namespace Pool
variable [DecidableEq π] [DecidableEq F] [DecidableEq A] {nullFunc : F}
  {s t : Pool π n F A} {a : Label π n F A} {xs : List (Label π n F A)}

def ring (s : Pool π n F A) : Ring π (Fin n) F A where
  queueBegin := s.queueBegin
  queueEnd := s.queueEnd
  funcs := s.funcs
  args := s.args
  pending := fun i => (s.producer i).pending
  taken := fun w => (s.worker w).taken
  tickets := s.tickets
  accepted := s.accepted
  returned := s.returned

/-- A thread that reserves a slot finds the ring not full. -/
def SteadyProducer (s : Pool π n F A) : Producer F A → Prop
  | .reserve _ _ prev => s.queueEnd = prev → (prev + 1) % maxQueueSize ≠ s.queueBegin
  | _ => True

/-- A worker that takes an argument finds the slot still at the beginning of the ring, with the
function it has read. -/
def SteadyWorker (s : Pool π n F A) : Worker F A → Prop
  | .takeArg prev arg func =>
    (s.args prev).map Prod.fst = some arg → s.queueBegin = prev ∧ s.funcs prev = func
  | _ => True

def Steady (s : Pool π n F A) : Label π n F A → Prop
  | .produce i => s.SteadyProducer (s.producer i)
  | .work w => s.SteadyWorker (s.worker w)
  | _ => True

/-- A worker whose compare-and-swap on the slot of its task fails. -/
def Spins (s : Pool π n F A) (w : Fin n) : Prop :=
  (∃ prev x, s.worker w = .clearFunc prev x ∧ s.funcs prev ≠ x.func) ∨
    ∃ prev x, s.worker w = .advance prev x ∧ s.queueBegin ≠ prev

theorem ring_setProducer (s : Pool π n F A) (i : π) (pc : Producer F A) :
    (s.setProducer i pc).ring =
      { s.ring with pending := Function.update s.ring.pending i pc.pending } := by
  have hpending : (fun j => (Function.update s.producer i pc j).pending) =
      Function.update (fun j => (s.producer j).pending) i pc.pending :=
    funext fun j => Function.apply_update (fun _ => Producer.pending) s.producer i pc j
  simp only [ring, setProducer, hpending]

theorem ring_setWorker (s : Pool π n F A) (w : Fin n) (pc : Worker F A) :
    (s.setWorker w pc).ring =
      { s.ring with taken := Function.update s.ring.taken w pc.taken } := by
  have htaken : (fun v => (Function.update s.worker w pc v).taken) =
      Function.update (fun v => (s.worker v).taken) w pc.taken :=
    funext fun v => Function.apply_update (fun _ => Worker.taken) s.worker w pc v
  simp only [ring, setWorker, htaken]

/-- A thread that neither puts in nor takes out a task. -/
theorem step_setProducer {i : π} {pc : Producer F A}
    (h : pc.pending = (s.producer i).pending) :
    Ring.Step nullFunc s.ring (s.setProducer i pc).ring := by
  have hsame : Function.update s.ring.pending i (s.producer i).pending = s.ring.pending :=
    Function.update_eq_self i s.ring.pending
  rw [ring_setProducer, h, hsame]
  exact .stay

theorem step_setWorker {w : Fin n} {pc : Worker F A} (h : pc.taken = (s.worker w).taken) :
    Ring.Step nullFunc s.ring (s.setWorker w pc).ring := by
  have hsame : Function.update s.ring.taken w (s.worker w).taken = s.ring.taken :=
    Function.update_eq_self w s.ring.taken
  rw [ring_setWorker, h, hsame]
  exact .stay

theorem add_ring (i : π) (func : F) (arg : A) :
    Ring.Step nullFunc s.ring (s.add i func arg).ring := by
  cases hpc : s.producer i with
  | idle =>
    cases hblock : s.block with
    | true =>
      simp only [add, hpc, hblock, if_true]
      exact .stay
    | false =>
      simp only [add, hpc, hblock, Bool.false_eq_true, if_false]
      exact step_setProducer (by rw [hpc]; rfl)
  | _ =>
    simp only [add, hpc]
    exact .stay

theorem produce_ring {i : π} (hsteady : s.Steady (.produce i)) :
    Ring.Step nullFunc s.ring (s.produce nullFunc i).ring := by
  cases hpc : s.producer i with
  | idle =>
    simp only [produce, hpc]
    exact .stay
  | readEnd func arg =>
    simp only [produce, hpc]
    exact step_setProducer (by rw [hpc]; rfl)
  | readBegin func arg prev =>
    simp only [produce, hpc]
    split
    · exact step_setProducer (by rw [hpc]; rfl)
    · exact step_setProducer (by rw [hpc]; rfl)
  | reserve func arg prev =>
    simp only [Steady, SteadyProducer, hpc] at hsteady
    simp only [produce, hpc]
    split
    · rename_i hend
      subst hend
      show Ring.Step nullFunc s.ring { (s.setProducer i _).ring with
        queueEnd := _
        tickets := _ }
      rw [ring_setProducer]
      exact .reserve i func arg (show (s.producer i).pending = none by rw [hpc]; rfl) (hsteady rfl)
    · exact step_setProducer (by rw [hpc]; rfl)
  | putFunc x prev =>
    simp only [produce, hpc]
    split
    · rename_i hfree
      show Ring.Step nullFunc s.ring { (s.setProducer i _).ring with funcs := _ }
      rw [ring_setProducer]
      exact .name i x prev (show (s.producer i).pending = _ by rw [hpc]; rfl) hfree
    · exact .stay
  | putArg x prev =>
    simp only [produce, hpc]
    split
    · rename_i hfree
      show Ring.Step nullFunc s.ring { (s.setProducer i _).ring with
        args := _
        accepted := _ }
      rw [ring_setProducer]
      exact .publish i x prev (show (s.producer i).pending = _ by rw [hpc]; rfl) hfree
    · exact .stay

theorem work_ring {w : Fin n} (hsteady : s.Steady (.work w)) :
    Ring.Step nullFunc s.ring (s.work nullFunc w).ring := by
  cases hpc : s.worker w with
  | readBegin =>
    simp only [work, hpc]
    exact step_setWorker (by rw [hpc]; rfl)
  | readArg prev =>
    simp only [work, hpc]
    split
    · exact step_setWorker (by rw [hpc]; rfl)
    · exact step_setWorker (by rw [hpc]; rfl)
  | readFunc prev arg =>
    simp only [work, hpc]
    exact step_setWorker (by rw [hpc]; rfl)
  | takeArg prev arg func =>
    simp only [Steady, SteadyWorker, hpc] at hsteady
    simp only [work, hpc]
    split
    · exact step_setWorker (by rw [hpc]; rfl)
    · rename_i arg' ticket hfull
      split
      · rename_i harg
        subst harg
        obtain ⟨hbegin, hfunc⟩ := hsteady (by rw [hfull]; rfl)
        subst hfunc
        show Ring.Step nullFunc s.ring { (s.setWorker w _).ring with args := _ }
        rw [ring_setWorker]
        exact .take w prev arg' ticket (show (s.worker w).taken = none by rw [hpc]; rfl) hfull
          hbegin
      · exact step_setWorker (by rw [hpc]; rfl)
  | clearFunc prev x =>
    simp only [work, hpc]
    split
    · rename_i hfunc
      show Ring.Step nullFunc s.ring { (s.setWorker w _).ring with funcs := _ }
      rw [ring_setWorker]
      exact .clear w x prev (show (s.worker w).taken = _ by rw [hpc]; rfl) hfunc
    · exact .stay
  | advance prev x =>
    simp only [work, hpc]
    split
    · rename_i hbegin
      show Ring.Step nullFunc s.ring { (s.setWorker w _).ring with
        queueBegin := _
        returned := _ }
      rw [ring_setWorker]
      exact .advance w x prev (show (s.worker w).taken = _ by rw [hpc]; rfl) hbegin
    · exact .stay
  | start x =>
    simp only [work, hpc]
    exact step_setWorker (s := s) (by rw [hpc]; rfl)
  | body x =>
    simp only [work, hpc]
    exact step_setWorker (s := s) (by rw [hpc]; rfl)
  | stop x =>
    simp only [work, hpc]
    exact step_setWorker (s := s) (by rw [hpc]; rfl)

theorem wait_ring : s.wait.ring = s.ring := by
  unfold wait
  split <;> rfl

theorem watch_ring : s.watch.ring = s.ring := by
  unfold watch
  split
  case h_3 =>
    split <;> rfl
  all_goals rfl

/-- The pool refines the ring. -/
theorem act_ring (a : Label π n F A) (hsteady : s.Steady a) :
    Ring.Step nullFunc s.ring (s.act nullFunc a).ring := by
  cases a with
  | add i func arg => exact add_ring i func arg
  | produce i => exact produce_ring hsteady
  | work w => exact work_ring hsteady
  | wait =>
    rw [act, wait_ring]
    exact .stay
  | watch =>
    rw [act, watch_ring]
    exact .stay

theorem ring_valid_init : (init nullFunc : Pool π n F A).ring.Valid := by
  constructor <;> simp [ring, init, Producer.pending, Worker.taken, Ring.oldest, maxQueueSize]

theorem ring_valid (hrun : Run (restrict (Step nullFunc) Steady) (init nullFunc) xs s) :
    s.ring.Valid := by
  refine hrun.invariant (P := fun s => s.ring.Valid) ?_ ring_valid_init
  rintro s a t ⟨rfl, hsteady⟩ h
  exact Ring.valid_step (act_ring a hsteady) h

theorem not_spins (h : s.ring.Valid) (w : Fin n) : ¬ s.Spins w := by
  rintro (⟨prev, x, hpc, hfunc⟩ | ⟨prev, x, hpc, hbegin⟩)
  · have htaken : s.ring.taken w = some (false, x, prev) := by
      show (s.worker w).taken = _
      rw [hpc]
      rfl
    exact hfunc (h.taken_func w x prev htaken)
  · have htaken : s.ring.taken w = some (true, x, prev) := by
      show (s.worker w).taken = _
      rw [hpc]
      rfl
    exact hbegin (h.taken_oldest w true x prev htaken).2.1.symm

/-- In every steady run, each accepted task is returned at most once and as it was added, and no
worker spins. -/
theorem tasks_returned_once (hrun : Run (restrict (Step nullFunc) Steady) (init nullFunc) xs s) :
    (s.accepted.map Task.ticket).Nodup ∧ (s.returned.map Task.ticket).Nodup ∧
      (∀ x ∈ s.returned, x ∈ s.accepted) ∧ ∀ w, ¬ s.Spins w := by
  have h := ring_valid hrun
  exact ⟨h.accepted_nodup, h.returned_nodup, fun x hx => (h.returned_mem x hx).1, not_spins h⟩

/-- The steps of a whole call of `add_task` that nobody disturbs. -/
def adding (i : π) (func : F) (arg : A) : List (Label π n F A) :=
  .add i func arg :: List.replicate 5 (.produce i)

/-- The steps of a worker that takes a task and runs it. -/
def serving (w : Fin n) : List (Label π n F A) := List.replicate 9 (.work w)

instance (s : Pool π n F A) (pc : Producer F A) : Decidable (s.SteadyProducer pc) := by
  unfold SteadyProducer
  split <;> infer_instance

instance (s : Pool π n F A) (pc : Worker F A) : Decidable (s.SteadyWorker pc) := by
  unfold SteadyWorker
  split <;> infer_instance

instance (s : Pool π n F A) (a : Label π n F A) : Decidable (s.Steady a) := by
  unfold Steady
  split <;> infer_instance

local instance two_neZero : NeZero 2 := ⟨two_ne_zero⟩

/-- Two threads add the same pair, and one worker runs both tasks. -/
def sharedSchedule : List (Label Bool 2 ℕ ℕ) :=
  adding true 1 7 ++ adding false 1 7 ++ serving 0 ++ serving 0

theorem sharedSchedule_once : ∃ s, Run (restrict (Step 0) Steady) (init 0) sharedSchedule s ∧
    s.returned = [⟨1, 7, 1⟩, ⟨1, 7, 0⟩] ∧
    (∀ x ∈ s.returned, x ∈ s.accepted) ∧
    ∀ w, ¬ s.Spins w := by
  obtain ⟨s, hrun, hret⟩ := exists_run_acts
    (fun s a => some (act 0 s a)) (fun s a => s.Steady a) (init 0)
    sharedSchedule Pool.returned
    (show _ = some (sharedSchedule, [⟨1, 7, 1⟩, ⟨1, 7, 0⟩]) by decide +kernel)
  have hrun' : Run (restrict (Step 0) Steady) (init 0) sharedSchedule s :=
    hrun.mono fun _ _ _ h => ⟨(Option.some.inj h.1).symm, decide_eq_true_iff.mp h.2⟩
  obtain ⟨-, -, hmem, hspins⟩ := tasks_returned_once hrun'
  exact ⟨s, hrun', hret, hmem, hspins⟩

/-- A slot whose task was taken by a worker that had read another function: its function can neither
be cleared nor replaced. -/
structure Dead (nullFunc : F) (s : Pool π n F A) (p : ℕ) : Prop where
  func : s.funcs p ≠ nullFunc
  arg : s.args p = none
  producer : ∀ i x, s.producer i ≠ .putArg x p
  worker : ∀ w x, s.worker w = .clearFunc p x → s.funcs p ≠ x.func

namespace Dead
variable {p : ℕ}

theorem setProducer (h : Dead nullFunc s p) (i : π) (pc : Producer F A)
    (hpc : ∀ x, pc ≠ .putArg x p) : Dead nullFunc (s.setProducer i pc) p := by
  refine ⟨h.func, h.arg, ?_, h.worker⟩
  intro j x hj
  by_cases hji : j = i
  · rw [hji, setProducer_self] at hj
    exact hpc x hj
  · rw [setProducer_ne s hji] at hj
    exact h.producer j x hj

theorem setWorker (h : Dead nullFunc s p) (w : Fin n) (pc : Worker F A)
    (hpc : ∀ x, pc = .clearFunc p x → s.funcs p ≠ x.func) :
    Dead nullFunc (s.setWorker w pc) p := by
  refine ⟨h.func, h.arg, h.producer, ?_⟩
  intro v x hv
  by_cases hvw : v = w
  · rw [hvw, setWorker_self] at hv
    exact hpc x hv
  · rw [setWorker_ne s hvw] at hv
    exact h.worker v x hv

omit [DecidableEq π] [DecidableEq F] [DecidableEq A] in
theorem setFunc (h : Dead nullFunc s p) {q : ℕ} (hq : p ≠ q) (func : F) :
    Dead nullFunc { s with funcs := Function.update s.funcs q func } p := by
  have hsame : Function.update s.funcs q func p = s.funcs p := Function.update_of_ne hq ..
  exact ⟨by simpa only [hsame] using h.func, h.arg, h.producer, by
    simpa only [hsame] using h.worker⟩

omit [DecidableEq π] [DecidableEq F] [DecidableEq A] in
theorem setArg (h : Dead nullFunc s p) {q : ℕ} (hq : p ≠ q) (arg : Option (A × ℕ)) :
    Dead nullFunc { s with args := Function.update s.args q arg } p :=
  ⟨h.func, (Function.update_of_ne hq ..).trans h.arg, h.producer, h.worker⟩

omit [DecidableEq π] [DecidableEq F] [DecidableEq A] in
theorem of_eq (h : Dead nullFunc s p) (hfuncs : t.funcs = s.funcs) (hargs : t.args = s.args)
    (hproducer : t.producer = s.producer) (hworker : t.worker = s.worker) : Dead nullFunc t p := by
  obtain ⟨h1, h2, h3, h4⟩ := h
  constructor <;> simp only [hfuncs, hargs, hproducer, hworker] <;> assumption

theorem produce (h : Dead nullFunc s p) (i : π) : Dead nullFunc (s.produce nullFunc i) p := by
  cases hpc : s.producer i with
  | idle => simpa only [Pool.produce, hpc] using h
  | readEnd func arg =>
    simp only [Pool.produce, hpc]
    exact h.setProducer _ _ (by simp)
  | readBegin func arg prev =>
    simp only [Pool.produce, hpc]
    split
    · exact h.setProducer _ _ (by simp)
    · exact h.setProducer _ _ (by simp)
  | reserve func arg prev =>
    simp only [Pool.produce, hpc]
    split
    · refine of_eq (h.setProducer i _ ?_) rfl rfl rfl rfl
      simp
    · exact h.setProducer _ _ (by simp)
  | putFunc y prev =>
    simp only [Pool.produce, hpc]
    split
    · rename_i hfree
      have hne : p ≠ prev := by
        rintro rfl
        exact h.func hfree
      refine (h.setProducer i _ ?_).setFunc hne y.func
      intro x heq
      cases heq
      exact hne rfl
    · exact h
  | putArg y prev =>
    have hne : p ≠ prev := by
      rintro rfl
      exact h.producer i y hpc
    simp only [Pool.produce, hpc]
    split
    · refine of_eq ((h.setProducer i _ ?_).setArg hne (some (y.arg, y.ticket))) rfl rfl rfl rfl
      simp
    · exact h

theorem work (h : Dead nullFunc s p) (w : Fin n) : Dead nullFunc (s.work nullFunc w) p := by
  cases hpc : s.worker w with
  | readBegin =>
    simp only [Pool.work, hpc]
    exact h.setWorker _ _ (by simp)
  | readArg prev =>
    simp only [Pool.work, hpc]
    split
    · exact h.setWorker _ _ (by simp)
    · exact h.setWorker _ _ (by simp)
  | readFunc prev arg =>
    simp only [Pool.work, hpc]
    exact h.setWorker _ _ (by simp)
  | takeArg prev arg func =>
    simp only [Pool.work, hpc]
    split
    · exact h.setWorker _ _ (by simp)
    · rename_i arg' ticket hfull
      have hne : p ≠ prev := by
        rintro rfl
        rw [h.arg] at hfull
        cases hfull
      split
      · refine (h.setWorker w _ ?_).setArg hne none
        intro x heq
        cases heq
        exact absurd rfl hne
      · exact h.setWorker _ _ (by simp)
  | clearFunc prev y =>
    simp only [Pool.work, hpc]
    split
    · rename_i hfunc
      have hne : p ≠ prev := by
        rintro rfl
        exact h.worker w y hpc hfunc
      exact (h.setWorker w _ (by simp)).setFunc hne nullFunc
    · exact h
  | advance prev y =>
    simp only [Pool.work, hpc]
    split
    · exact of_eq (h.setWorker w (.start y) (by simp)) rfl rfl rfl rfl
    · exact h
  | start y =>
    simp only [Pool.work, hpc]
    exact of_eq (h.setWorker w (.body y) (by simp)) rfl rfl rfl rfl
  | body y =>
    simp only [Pool.work, hpc]
    exact of_eq (h.setWorker w (.stop y) (by simp)) rfl rfl rfl rfl
  | stop y =>
    simp only [Pool.work, hpc]
    exact of_eq (h.setWorker w .readBegin (by simp)) rfl rfl rfl rfl

end Dead

/-- A dead slot stays dead. -/
theorem dead_step {p : ℕ} (hstep : Step nullFunc s a t) (h : Dead nullFunc s p) :
    Dead nullFunc t p := by
  subst hstep
  cases a with
  | add i func arg =>
    show Dead nullFunc (s.add i func arg) p
    unfold add
    split
    · split
      · exact h
      · exact h.setProducer _ _ (by simp)
    · exact h
  | produce i => exact h.produce i
  | work w => exact h.work w
  | wait =>
    show Dead nullFunc s.wait p
    unfold wait
    split <;> exact h.of_eq rfl rfl rfl rfl
  | watch =>
    show Dead nullFunc s.watch p
    unfold watch
    split
    case h_3 =>
      split <;> exact h.of_eq rfl rfl rfl rfl
    all_goals exact h.of_eq rfl rfl rfl rfl

/-- Only a worker changes what it does next. -/
theorem act_worker {w : Fin n} (h : a ≠ .work w) : (s.act nullFunc a).worker w = s.worker w := by
  cases a with
  | add i func arg =>
    simp only [act, add]
    split
    · split <;> rfl
    · rfl
  | produce i =>
    simp only [act, produce]
    split <;> (try split) <;> rfl
  | work v =>
    have hv : w ≠ v := fun heq => h (heq ▸ rfl)
    simp only [act, work]
    split <;> (try split) <;> (try split) <;> first | rfl | exact setWorker_ne s hv _
  | wait =>
    simp only [act, wait]
    split <;> rfl
  | watch =>
    simp only [act, watch]
    split <;> (try split) <;> rfl

/-- A worker that is to clear a dead slot spins for good. -/
theorem spins_of_dead {p : ℕ} {w : Fin n} {x : Task F A} (hrun : Run (Step nullFunc) s xs t)
    (hdead : Dead nullFunc s p) (hw : s.worker w = .clearFunc p x) : t.Spins w := by
  have hinv : Dead nullFunc t p ∧ t.worker w = .clearFunc p x := by
    refine hrun.invariant (P := fun s => Dead nullFunc s p ∧ s.worker w = .clearFunc p x) ?_
      ⟨hdead, hw⟩
    rintro s a t hstep ⟨hdead, hw⟩
    refine ⟨dead_step hstep hdead, ?_⟩
    subst hstep
    by_cases ha : a = .work w
    · subst ha
      simp only [act, work, hw, if_neg (hdead.worker w x hw)]
    · rw [act_worker ha, hw]
  exact .inl ⟨p, x, hinv.2, hinv.1.worker w x hinv.2⟩

/-- Worker 0 looks at the task of slot 0 and stalls; the others go round the ring, and a task with
the same argument and another function comes into slot 0. -/
def roundSchedule : List (Label Unit 2 ℕ ℕ) :=
  adding () 1 7 ++ List.replicate 3 (.work 0) ++ serving 1 ++
    (List.replicate 63 (adding () 1 8)).flatten ++ serving 1 ++ adding () 2 7 ++ [.work 0]

theorem roundSchedule_spins : ∃ s, Run (Step 0) (init 0) roundSchedule s ∧
    ∀ xs t, Run (Step 0) s xs t → t.Spins 0 := by
  obtain ⟨s, hrun, hend⟩ := exists_run_acts (fun s a => some (act 0 s a)) (fun _ _ => true) (init 0)
    roundSchedule (fun s => decide (s.funcs 0 = 2 ∧ s.args 0 = none ∧ s.producer () = .idle ∧
      s.worker 0 = .clearFunc 0 ⟨1, 7, 64⟩ ∧ s.worker 1 = .readBegin))
    (show _ = some (roundSchedule, true) by decide +kernel)
  obtain ⟨hfunc, harg, hproducer, hw0, hw1⟩ := decide_eq_true_iff.mp hend
  refine ⟨s, hrun.mono fun _ _ _ h => (Option.some.inj h.1).symm,
    fun xs t hrun' => spins_of_dead hrun' ?_ hw0⟩
  refine ⟨by rw [hfunc]; decide, harg, by simp [hproducer], ?_⟩
  intro w x hw
  match w, hw with
  | 0, hw =>
    rw [hw0] at hw
    cases hw
    rw [hfunc]
    decide
  | 1, hw =>
    rw [hw1] at hw
    cases hw

end Pool
end YwStorage.WorkerPool

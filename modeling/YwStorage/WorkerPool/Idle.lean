import YwStorage.WorkerPool.Tasks

/-!
`wait_to_idle` as a barrier.

A task that has left the ring is counted by the flag of its worker only after the worker has set it.
The barrier holds in the runs in which no scan of the flags comes upon a worker in between.
-/
namespace YwStorage.WorkerPool
open Lts

variable {π F A : Type*} {n : ℕ}

/-- The task that `get_task` has returned to a worker and that the worker is not done with. -/
def Worker.held : Worker F A → Option (Task F A)
  | .start x | .body x | .stop x => some x
  | _ => none

/-- The worker has a task and has not set its flag. -/
def Worker.isStart : Worker F A → Bool
  | .start _ => true
  | _ => false

namespace Pool
variable [DecidableEq π] [DecidableEq F] [DecidableEq A] {nullFunc : F}
  {s t : Pool π n F A} {a : Label π n F A} {xs : List (Label π n F A)}

/-- The scan finds no worker between `get_task` and the store to its flag. -/
def Settled (s : Pool π n F A) : Label π n F A → Prop
  | .watch => match s.caller with
    | .scan i _ => ∀ w : Fin n, w.val = i → (s.worker w).isStart = false
    | _ => True
  | _ => True

/-- The tasks that have left the ring are with a worker or finished. -/
structure Served (s : Pool π n F A) : Prop where
  stop_finished : ∀ w x, s.worker w = .stop x → x.ticket ∈ s.finished
  body_running : ∀ w x, s.worker w = .body x → s.running w = true
  stop_running : ∀ w x, s.worker w = .stop x → s.running w = true
  accounted : ∀ x ∈ s.accepted, s.ring.oldest ≤ x.ticket ∨ x.ticket ∈ s.finished ∨
    ∃ w y, (s.worker w).held = some y ∧ y.ticket = x.ticket

/-- What the steps of the other threads do not undo. -/
structure Progress (s t : Pool π n F A) : Prop where
  caller : t.caller = s.caller
  due : t.due = s.due
  finished : ∀ τ ∈ s.finished, τ ∈ t.finished
  oldest : s.ring.oldest ≤ t.ring.oldest
  held : ∀ w x, (s.worker w).held = some x → x.ticket ∈ t.finished ∨ (t.worker w).held = some x

/-- Steps of producers change none of these. -/
structure SameWork (s t : Pool π n F A) : Prop where
  worker : t.worker = s.worker
  running : t.running = s.running
  finished : t.finished = s.finished
  caller : t.caller = s.caller
  due : t.due = s.due
  returned : t.returned = s.returned

theorem add_sameWork (i : π) (func : F) (arg : A) : SameWork s (s.add i func arg) := by
  unfold add
  split <;> (try split) <;> exact ⟨rfl, rfl, rfl, rfl, rfl, rfl⟩

theorem produce_sameWork (i : π) : SameWork s (s.produce nullFunc i) := by
  unfold produce
  split <;> (try split) <;> exact ⟨rfl, rfl, rfl, rfl, rfl, rfl⟩

theorem SameWork.progress (h : SameWork s t) : Progress s t where
  caller := h.caller
  due := h.due
  finished := by
    intro τ hτ
    rwa [h.finished]
  oldest := by
    show s.returned.length ≤ t.returned.length
    exact Nat.le_of_eq (by rw [h.returned])
  held := by
    intro w x hx
    right
    rwa [h.worker]

/-- A worker keeps its task until it is finished. -/
theorem work_held (h : s.Served) {w v : Fin n} {x : Task F A} (hx : (s.worker v).held = some x) :
    x.ticket ∈ (s.work nullFunc w).finished ∨ ((s.work nullFunc w).worker v).held = some x := by
  by_cases hv : v = w
  · subst hv
    cases hpc : s.worker v with
    | start y =>
      rw [hpc] at hx
      simp only [work, hpc]
      exact .inr (by simpa [Worker.held] using hx)
    | body y =>
      rw [hpc] at hx
      simp only [work, hpc]
      exact .inr (by simpa [Worker.held] using hx)
    | stop y =>
      rw [hpc] at hx
      obtain rfl := Option.some.inj hx
      simp only [work, hpc]
      exact .inl (h.stop_finished v y hpc)
    | _ =>
      rw [hpc] at hx
      cases hx
  · have hsame : (s.act nullFunc (.work w)).worker v = s.worker v :=
      act_worker fun heq => hv (Label.work.inj heq).symm
    exact .inr (hsame ▸ hx)

theorem work_progress (h : s.Served) (w : Fin n) : Progress s (s.work nullFunc w) where
  caller := by
    unfold work
    split <;> (try split) <;> (try split) <;> rfl
  due := by
    unfold work
    split <;> (try split) <;> (try split) <;> rfl
  finished := by
    intro τ hτ
    unfold work
    split <;> (try split) <;> (try split) <;> first | exact hτ | exact List.mem_cons_of_mem _ hτ
  oldest := by
    show s.returned.length ≤ (s.work nullFunc w).returned.length
    unfold work
    split <;> (try split) <;> (try split) <;> first | exact Nat.le_refl _ | exact Nat.le_succ _
  held := fun _ _ hx => work_held h hx

omit [DecidableEq π] [DecidableEq F] [DecidableEq A] in
/-- A task accepted and gone from the ring before a step is accounted for after it. -/
theorem Progress.accounted (h : Progress s t) {x : Task F A}
    (hx : x.ticket ∈ s.finished ∨ ∃ w y, (s.worker w).held = some y ∧ y.ticket = x.ticket) :
    x.ticket ∈ t.finished ∨ ∃ w y, (t.worker w).held = some y ∧ y.ticket = x.ticket := by
  rcases hx with hx | ⟨w, y, hy, heq⟩
  · exact .inl (h.finished _ hx)
  · rcases h.held w y hy with hfin | hheld
    · exact .inl (heq ▸ hfin)
    · exact .inr ⟨w, y, hheld, heq⟩

theorem SameWork.served (h : SameWork s t) (hserved : s.Served)
    (haccepted : ∀ x ∈ t.accepted, x ∈ s.accepted ∨ s.ring.oldest ≤ x.ticket) : t.Served := by
  have hold : t.ring.oldest = s.ring.oldest := congrArg List.length h.returned
  refine ⟨?_, ?_, ?_, ?_⟩
  · rw [h.worker, h.finished]
    exact hserved.stop_finished
  · rw [h.worker, h.running]
    exact hserved.body_running
  · rw [h.worker, h.running]
    exact hserved.stop_running
  · intro x hx
    rw [hold]
    rcases haccepted x hx with hx | hx
    · rcases hserved.accounted x hx with hle | hgone
      · exact .inl hle
      · exact .inr (h.progress.accounted hgone)
    · exact .inl hx

omit [DecidableEq A] in
theorem produce_accepted (h : s.ring.Valid) (i : π) :
    ∀ x ∈ (s.produce nullFunc i).accepted, x ∈ s.accepted ∨ s.ring.oldest ≤ x.ticket := by
  intro x hx
  cases hpc : s.producer i with
  | putArg y prev =>
    have hpending : s.ring.pending i = some (true, y, prev) := by
      show (s.producer i).pending = _
      rw [hpc]
      rfl
    simp only [produce, hpc] at hx
    split at hx
    · rcases List.mem_cons.mp hx with rfl | hx
      · exact .inr (h.pending_inside i true x prev hpending).oldest_le
      · exact .inl hx
    · exact .inl hx
  | _ =>
    simp only [produce, hpc] at hx
    first
      | exact .inl hx
      | (split at hx <;> exact .inl hx)

/-- A worker that takes a task out of the ring holds it. -/
theorem work_accounted (hring : s.ring.Valid) (h : s.Served) (w : Fin n) :
    ∀ x ∈ (s.work nullFunc w).accepted, (s.work nullFunc w).ring.oldest ≤ x.ticket ∨
      x.ticket ∈ (s.work nullFunc w).finished ∨
      ∃ v y, ((s.work nullFunc w).worker v).held = some y ∧ y.ticket = x.ticket := by
  intro x hx
  have haccepted : (s.work nullFunc w).accepted = s.accepted := by
    unfold work
    split <;> (try split) <;> (try split) <;> rfl
  rw [haccepted] at hx
  rcases h.accounted x hx with hle | hgone
  · by_cases hnow : (s.work nullFunc w).ring.oldest ≤ x.ticket
    · exact .inl hnow
    · -- the ring has given out its oldest task, which is `x`
      right; right
      cases hpc : s.worker w with
      | advance prev y =>
        have htaken : s.ring.taken w = some (true, y, prev) := by
          show (s.worker w).taken = _
          rw [hpc]
          rfl
        obtain ⟨hold, hprev, -, -⟩ := hring.taken_oldest w true y prev htaken
        have hbegin : s.queueBegin = prev := hprev.symm
        refine ⟨w, y, ?_, ?_⟩
        · simp only [work, hpc, if_pos hbegin, setWorker_self, Worker.held]
        · have hlen : (s.work nullFunc w).ring.oldest = s.ring.oldest + 1 := by
            show (s.work nullFunc w).returned.length = s.returned.length + 1
            simp only [work, hpc, if_pos hbegin, List.length_cons]
          omega
      | _ =>
        refine absurd ?_ hnow
        have hsame : (s.work nullFunc w).returned = s.returned := by
          simp only [work, hpc]
          first | rfl | (split <;> (try split) <;> rfl)
        show (s.work nullFunc w).returned.length ≤ x.ticket
        rw [hsame]
        exact hle
  · exact .inr ((work_progress h w).accounted hgone)

theorem work_eq_body {w : Fin n} {x : Task F A}
    (h : (s.work nullFunc w).worker w = .body x) :
    s.worker w = .start x ∧ (s.work nullFunc w).running w = true := by
  cases hpc : s.worker w with
  | start y =>
    simp only [work, hpc, setWorker_self, Worker.body.injEq] at h ⊢
    exact ⟨by rw [h], Function.update_self ..⟩
  | _ =>
    simp only [work, hpc] at h
    first
      | (simp at h; done)
      | (split at h <;> (try split at h) <;> simp [hpc] at h)

theorem work_eq_stop {w : Fin n} {x : Task F A}
    (h : (s.work nullFunc w).worker w = .stop x) :
    s.worker w = .body x ∧ x.ticket ∈ (s.work nullFunc w).finished ∧
      (s.work nullFunc w).running w = s.running w := by
  cases hpc : s.worker w with
  | body y =>
    simp only [work, hpc, setWorker_self, Worker.stop.injEq] at h ⊢
    exact ⟨by rw [h], by rw [h]; exact List.mem_cons_self, rfl⟩
  | _ =>
    simp only [work, hpc] at h
    first
      | (simp at h; done)
      | (split at h <;> (try split at h) <;> simp [hpc] at h)

theorem work_served (hring : s.ring.Valid) (h : s.Served) (w : Fin n) :
    (s.work nullFunc w).Served := by
  have hne : ∀ v, v ≠ w → (s.work nullFunc w).worker v = s.worker v := by
    intro v hv
    exact act_worker (a := .work w) fun heq => hv (Label.work.inj heq).symm
  have hflag : ∀ v, v ≠ w → (s.work nullFunc w).running v = s.running v := by
    intro v hv
    unfold work
    split <;> (try split) <;> (try split) <;> first | rfl | exact Function.update_of_ne hv ..
  refine ⟨?_, ?_, ?_, work_accounted hring h w⟩
  · intro v x hv
    by_cases hvw : v = w
    · subst hvw
      exact (work_eq_stop hv).2.1
    · rw [hne v hvw] at hv
      exact (work_progress h w).finished _ (h.stop_finished v x hv)
  · intro v x hv
    by_cases hvw : v = w
    · subst hvw
      exact (work_eq_body hv).2
    · rw [hne v hvw] at hv
      rw [hflag v hvw]
      exact h.body_running v x hv
  · intro v x hv
    by_cases hvw : v = w
    · subst hvw
      obtain ⟨hbody, -, hrunning⟩ := work_eq_stop hv
      rw [hrunning]
      exact h.body_running v x hbody
    · rw [hne v hvw] at hv
      rw [hflag v hvw]
      exact h.stop_running v x hv

/-- What the caller knows of the tasks it waits for. -/
def Waits (s : Pool π n F A) : Caller → Prop
  | .readBegin queueEnd => ∃ tickets, queueEnd = tickets % maxQueueSize ∧
      (∀ τ ∈ s.due, τ < tickets) ∧ tickets < s.ring.oldest + maxQueueSize
  | .scan i ret => ret = 0 → ∀ τ ∈ s.due, τ ∈ s.finished ∨
      ∃ w : Fin n, i ≤ w ∧ ∃ y, (s.worker w).held = some y ∧ y.ticket = τ
  | .assertEnd | .assertBegin _ | .unblock | .returned => ∀ τ ∈ s.due, τ ∈ s.finished
  | .idle | .readEnd | .failed => True

theorem Progress.waits (h : Progress s t) (hs : s.Waits s.caller) : t.Waits t.caller := by
  rw [h.caller]
  cases hc : s.caller with
  | readBegin queueEnd =>
    rw [hc] at hs
    obtain ⟨tickets, heq, hdue, hlt⟩ := hs
    refine ⟨tickets, heq, ?_, ?_⟩
    · rwa [h.due]
    · have := h.oldest
      omega
  | scan i ret =>
    rw [hc] at hs
    intro hret τ hτ
    rw [h.due] at hτ
    rcases hs hret τ hτ with hfin | ⟨w, hw, y, hy, heq⟩
    · exact .inl (h.finished τ hfin)
    · rcases h.held w y hy with hfin | hheld
      · exact .inl (heq ▸ hfin)
      · exact .inr ⟨w, hw, y, hheld, heq⟩
  | idle => trivial
  | readEnd => trivial
  | failed => trivial
  | _ =>
    rw [hc] at hs
    intro τ hτ
    rw [h.due] at hτ
    exact h.finished τ (hs τ hτ)

structure Barrier (s : Pool π n F A) : Prop where
  ring : s.ring.Valid
  served : s.Served
  due_accepted : ∀ τ ∈ s.due, ∃ x ∈ s.accepted, x.ticket = τ
  waits : s.Waits s.caller

theorem barrier_init : (init nullFunc : Pool π n F A).Barrier := by
  refine ⟨ring_valid_init, ⟨?_, ?_, ?_, ?_⟩, ?_, trivial⟩ <;> simp [init]

/-- Where the ends of the ring meet, the tasks that are waited for have left it. -/
theorem waits_scan (h : s.Barrier) {queueEnd : ℕ} (hwaits : s.Waits (.readBegin queueEnd))
    (hmeet : queueEnd = s.queueBegin) : s.Waits (.scan 0 0) := by
  obtain ⟨tickets, heq, hdue, hlt⟩ := hwaits
  have hbegin : s.queueBegin = s.ring.oldest % maxQueueSize := h.ring.begin_eq
  have hle : tickets ≤ s.ring.oldest := by
    unfold maxQueueSize at *
    omega
  intro _ τ hτ
  obtain ⟨x, hx, rfl⟩ := h.due_accepted τ hτ
  have hlt := hdue _ hτ
  rcases h.served.accounted x hx with hin | hfin | ⟨w, y, hy, heq⟩
  · omega
  · exact .inl hfin
  · exact .inr ⟨w, Nat.zero_le _, y, hy, heq⟩

/-- A flag that is not set belongs to a worker without a task. -/
theorem waits_scan_succ (h : s.Barrier) {i ret : ℕ} (hi : i < n) (hwaits : s.Waits (.scan i ret))
    (hstart : (s.worker ⟨i, hi⟩).isStart = false) :
    s.Waits (.scan (i + 1) (ret + if s.running ⟨i, hi⟩ then 1 else 0)) := by
  intro hret τ hτ
  have hrunning : s.running ⟨i, hi⟩ = false := by
    cases hr : s.running ⟨i, hi⟩ with
    | false => rfl
    | true => simp [hr] at hret
  rcases hwaits (by omega) τ hτ with hfin | ⟨w, hw, y, hy, heq⟩
  · exact .inl hfin
  · refine .inr ⟨w, ?_, y, hy, heq⟩
    rcases Nat.lt_or_eq_of_le hw with hlt | hwi
    · exact hlt
    · obtain rfl : (⟨i, hi⟩ : Fin n) = w := Fin.ext hwi
      -- a worker with a task and without its flag would be at `start`
      cases hpc : s.worker ⟨i, hi⟩ with
      | start x =>
        rw [hpc] at hstart
        cases hstart
      | body x =>
        rw [h.served.body_running _ x hpc] at hrunning
        cases hrunning
      | stop x =>
        rw [h.served.stop_running _ x hpc] at hrunning
        cases hrunning
      | _ =>
        rw [hpc] at hy
        cases hy

theorem watch_waits (h : s.Barrier) (hsettled : s.Settled .watch) :
    s.watch.Waits s.watch.caller := by
  have hwaits := h.waits
  cases hc : s.caller with
  | readEnd =>
    simp only [watch, hc]
    refine ⟨s.tickets, h.ring.end_eq, ?_, h.ring.tickets_lt⟩
    intro τ hτ
    obtain ⟨x, hx, rfl⟩ := h.due_accepted τ hτ
    exact h.ring.accepted_lt x hx
  | readBegin queueEnd =>
    rw [hc] at hwaits
    simp only [watch, hc]
    split
    · rename_i hmeet
      have hscan := waits_scan h hwaits hmeet
      exact hscan
    · trivial
  | scan i ret =>
    rw [hc] at hwaits
    simp only [Settled, hc] at hsettled
    simp only [watch, hc]
    split
    · rename_i hi
      exact waits_scan_succ h hi hwaits (hsettled ⟨i, hi⟩ rfl)
    · rename_i hi
      split
      · rename_i hret
        intro τ hτ
        rcases hwaits hret τ hτ with hfin | ⟨w, hw, -⟩
        · exact hfin
        · exact absurd (Nat.lt_of_le_of_lt hw w.isLt) hi
      · trivial
  | assertEnd =>
    rw [hc] at hwaits
    simp only [watch, hc]
    exact hwaits
  | assertBegin queueEnd =>
    rw [hc] at hwaits
    simp only [watch, hc]
    split
    · exact hwaits
    · trivial
  | unblock =>
    rw [hc] at hwaits
    simp only [watch, hc]
    exact hwaits
  | returned =>
    rw [hc] at hwaits
    simp only [watch, hc]
    exact hwaits
  | idle =>
    simp only [watch, hc]
    trivial
  | failed =>
    simp only [watch, hc]
    trivial

theorem Served.of_eq (h : s.Served) (hworker : t.worker = s.worker)
    (hrunning : t.running = s.running) (hfinished : t.finished = s.finished)
    (haccepted : t.accepted = s.accepted) (hring : t.ring = s.ring) : t.Served := by
  obtain ⟨h1, h2, h3, h4⟩ := h
  constructor <;> simp only [hworker, hrunning, hfinished, haccepted, hring] <;> assumption

theorem barrier_busy (h : s.Barrier) (hring : t.ring.Valid) (hserved : t.Served)
    (hprogress : Progress s t) (haccepted : ∀ x ∈ s.accepted, x ∈ t.accepted) : t.Barrier := by
  refine ⟨hring, hserved, ?_, hprogress.waits h.waits⟩
  intro τ hτ
  rw [hprogress.due] at hτ
  obtain ⟨x, hx, rfl⟩ := h.due_accepted τ hτ
  exact ⟨x, haccepted x hx, rfl⟩

theorem barrier_step (hstep : Step nullFunc s a t) (hsteady : s.Steady a)
    (hsettled : s.Settled a) (h : s.Barrier) : t.Barrier := by
  subst hstep
  have hring : (s.act nullFunc a).ring.Valid := Ring.valid_step (act_ring a hsteady) h.ring
  cases a with
  | add i func arg =>
    have hsame : SameWork s (s.add i func arg) := add_sameWork i func arg
    have haccepted : (s.add i func arg).accepted = s.accepted := by
      unfold add
      split <;> (try split) <;> rfl
    refine barrier_busy h hring (hsame.served h.served ?_) hsame.progress ?_
    · intro x hx
      exact .inl (haccepted ▸ hx)
    · intro x hx
      show x ∈ (s.add i func arg).accepted
      rwa [haccepted]
  | produce i =>
    have hsame : SameWork s (s.produce nullFunc i) := produce_sameWork i
    refine barrier_busy h hring (hsame.served h.served (produce_accepted h.ring i))
      hsame.progress ?_
    intro x hx
    show x ∈ (s.produce nullFunc i).accepted
    unfold produce
    split <;> (try split) <;> first | exact hx | exact List.mem_cons_of_mem _ hx
  | work w =>
    refine barrier_busy h hring (work_served h.ring h.served w) (work_progress h.served w) ?_
    intro x hx
    show x ∈ (s.work nullFunc w).accepted
    unfold work
    split <;> (try split) <;> (try split) <;> exact hx
  | wait =>
    have hserved : s.wait.Served := by
      unfold wait
      split <;> exact h.served.of_eq rfl rfl rfl rfl rfl
    refine ⟨hring, hserved, ?_, ?_⟩
    · show ∀ τ ∈ s.wait.due, ∃ x ∈ s.wait.accepted, x.ticket = τ
      unfold wait
      split
      · exact fun τ hτ => List.mem_map.mp hτ
      · exact fun τ hτ => List.mem_map.mp hτ
      · exact h.due_accepted
    · show s.wait.Waits s.wait.caller
      unfold wait
      split
      · trivial
      · trivial
      · exact h.waits
  | watch =>
    have hserved : s.watch.Served := by
      unfold watch
      split <;> (try split) <;> exact h.served.of_eq rfl rfl rfl rfl rfl
    refine ⟨hring, hserved, ?_, watch_waits h hsettled⟩
    show ∀ τ ∈ s.watch.due, ∃ x ∈ s.watch.accepted, x.ticket = τ
    unfold watch
    split <;> (try split) <;> exact h.due_accepted

/-- In every steady run whose scans find the workers settled, `wait_to_idle` returns only after the
tasks accepted before its call are finished. -/
theorem idle_means_done
    (hrun : Run (restrict (Step nullFunc) fun s a => s.Steady a ∧ s.Settled a) (init nullFunc) xs s)
    (hret : s.caller = .returned) : ∀ τ ∈ s.due, τ ∈ s.finished := by
  have h : s.Barrier := by
    refine hrun.invariant (P := Barrier) ?_ barrier_init
    rintro s a t ⟨hstep, hsteady, hsettled⟩ h
    exact barrier_step hstep hsteady hsettled h
  have hwaits := h.waits
  rwa [hret] at hwaits

instance (s : Pool π n F A) : (a : Label π n F A) → Decidable (s.Settled a)
  | .watch => by
    unfold Settled
    dsimp only
    split <;> infer_instance
  | .add .. | .produce _ | .work _ | .wait => .isTrue trivial

/-- The steps of a call of `wait_to_idle` whose first look finds the pool idle. -/
def waiting (n : ℕ) : List (Label π n F A) := .wait :: List.replicate (n + 6) .watch

/-- A task is added and run, and then waited for. -/
def doneSchedule : List (Label Unit 1 ℕ ℕ) := adding () 1 7 ++ serving 0 ++ waiting 1

theorem doneSchedule_done : ∃ s,
    Run (restrict (Step 0) fun s a => s.Steady a ∧ s.Settled a) (init 0) doneSchedule s ∧
    s.caller = .returned ∧ s.due = [0] ∧ ∀ τ ∈ s.due, τ ∈ s.finished := by
  obtain ⟨s, hrun, hend⟩ := exists_run_acts (fun s a => some (act 0 s a))
    (fun s a => decide (s.Steady a ∧ s.Settled a)) (init 0) doneSchedule
    (fun s => (s.caller, s.due)) (show _ = some (doneSchedule, .returned, [0]) by decide +kernel)
  obtain ⟨hret, hdue⟩ := Prod.mk.inj hend
  have hrun' : Run (restrict (Step 0) fun s a => s.Steady a ∧ s.Settled a) (init 0)
      doneSchedule s :=
    hrun.mono fun _ _ _ h => ⟨(Option.some.inj h.1).symm, decide_eq_true_iff.mp h.2⟩
  exact ⟨s, hrun', hret, hdue, idle_means_done hrun' hret⟩

/-- The worker has taken the task out of the ring but not yet set its flag. -/
def earlySchedule : List (Label Unit 1 ℕ ℕ) :=
  adding () 1 7 ++ List.replicate 6 (.work 0) ++ waiting 1

theorem earlySchedule_not_done : ∃ s, Run (Step 0) (init 0) earlySchedule s ∧
    s.caller = .returned ∧ 0 ∈ s.due ∧ 0 ∉ s.finished := by
  obtain ⟨s, hrun, hend⟩ := exists_run_acts (fun s a => some (act 0 s a)) (fun _ _ => true) (init 0)
    earlySchedule (fun s => (s.caller, s.due, s.finished))
    (show _ = some (earlySchedule, .returned, [0], []) by decide +kernel)
  obtain ⟨hret, hrest⟩ := Prod.mk.inj hend
  obtain ⟨hdue, hfin⟩ := Prod.mk.inj hrest
  exact ⟨s, hrun.mono fun _ _ _ h => (Option.some.inj h.1).symm, hret, by simp [hdue],
    by simp [hfin]⟩

end Pool
end YwStorage.WorkerPool

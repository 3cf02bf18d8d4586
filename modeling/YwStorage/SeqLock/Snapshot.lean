import YwStorage.SeqLock.Basic

/-! A read that ends with an unchanged even sequence number has seen a single state. -/
namespace YwStorage.SeqLock
open Lts

variable {ι σ ω φ ρ : Type*} [DecidableEq ι] {apply : σ → ω → σ} {plan : σ → φ → List ω → Prop}
  {s t u : State ι σ ω φ ρ} {a : Label ι σ φ ρ} {xs : List (Label ι σ φ ρ)}

theorem and_lockMask (n : ℕ) : n &&& lockMask = n % 2 := Nat.and_one_is_mod n

theorem or_lockMask {n : ℕ} (h : n % 2 = 0) : n ||| lockMask = n + 1 := by
  have hor := Nat.two_pow_add_eq_or_of_lt (b := 1) (i := 1) (by decide) (n / 2)
  rw [show 2 ^ 1 * (n / 2) = n by omega] at hor
  exact hor.symm

/-- The lowest bit of the sequence number says whether a writer holds the lock, and at most one
writer does. -/
structure Exclusive (s : State ι σ ω φ ρ) : Prop where
  lockSeq_lt : s.lockSeq < 2 ^ 32
  odd_of_holds : ∀ i, (s.writer i).Holds → s.lockSeq % 2 = 1
  holds_of_odd : s.lockSeq % 2 = 1 → ∃ i, (s.writer i).Holds
  unique : ∀ i j, (s.writer i).Holds → (s.writer j).Holds → i = j
  release_seq : ∀ i prev, s.writer i = .release prev → s.lockSeq = prev

theorem exclusive_initial (h : Initial s) : Exclusive s := by
  obtain ⟨heven, hlt, hinit, -⟩ := h
  rw [and_lockMask] at heven
  refine ⟨hlt, ?_, ?_, ?_, ?_⟩
  · intro i hi
    rw [hinit i] at hi
    exact hi.elim
  · omega
  · intro i j hi
    rw [hinit i] at hi
    exact hi.elim
  · intro i prev hi
    rw [hinit i] at hi
    cases hi

section Writer
variable {i j : ι} {w : Writer ω φ}

@[simp] theorem setWriter_lockSeq : (s.setWriter i w).lockSeq = s.lockSeq := rfl

@[simp] theorem setWriter_data : (s.setWriter i w).data = s.data := rfl

@[simp] theorem setWriter_reader : (s.setWriter i w).reader = s.reader := rfl

theorem setWriter_self : (s.setWriter i w).writer i = w := Function.update_self ..

theorem setWriter_ne (h : j ≠ i) : (s.setWriter i w).writer j = s.writer j :=
  Function.update_of_ne h ..

/-- A thread that goes on without taking or giving back the lock. -/
theorem Exclusive.setWriter (h : Exclusive s) (hholds : w.Holds ↔ (s.writer i).Holds)
    (hrelease : ∀ prev, w = .release prev → s.lockSeq = prev) : Exclusive (s.setWriter i w) := by
  have hsame : ∀ j, ((s.setWriter i w).writer j).Holds ↔ (s.writer j).Holds := by
    intro j
    by_cases hj : j = i
    · rw [hj, setWriter_self, hholds]
    · rw [setWriter_ne hj]
  refine ⟨h.lockSeq_lt, ?_, ?_, ?_, ?_⟩
  · intro j hj
    exact h.odd_of_holds j ((hsame j).mp hj)
  · intro hodd
    obtain ⟨j, hj⟩ := h.holds_of_odd hodd
    exact ⟨j, (hsame j).mpr hj⟩
  · intro j k hj hk
    exact h.unique j k ((hsame j).mp hj) ((hsame k).mp hk)
  · intro j prev hj
    by_cases hji : j = i
    · rw [hji, setWriter_self] at hj
      exact hrelease prev hj
    · rw [setWriter_ne hji] at hj
      exact h.release_seq j prev hj

theorem Exclusive.acquire (h : Exclusive s) (heven : s.lockSeq % 2 = 0) {todo : List ω} :
    Exclusive { s.setWriter i (.locked todo) with lockSeq := s.lockSeq + 1 } := by
  have hfree : ∀ j, ¬ (s.writer j).Holds := by
    intro j hj
    have := h.odd_of_holds j hj
    omega
  have honly : ∀ j, ((s.setWriter i (.locked todo)).writer j).Holds → j = i := by
    intro j hj
    by_contra hji
    rw [setWriter_ne hji] at hj
    exact hfree j hj
  have hlt := h.lockSeq_lt
  refine ⟨?_, ?_, ?_, ?_, ?_⟩
  · show s.lockSeq + 1 < 2 ^ 32
    omega
  · intro j _
    show (s.lockSeq + 1) % 2 = 1
    omega
  · intro _
    refine ⟨i, ?_⟩
    show ((s.setWriter i (.locked todo)).writer i).Holds
    rw [setWriter_self]
    trivial
  · intro j k hj hk
    exact (honly j hj).trans (honly k hk).symm
  · intro j prev hj
    have hji : j = i := honly j (by
      have hj' : (s.setWriter i (.locked todo)).writer j = .release prev := hj
      rw [hj']
      trivial)
    have hj' : (s.setWriter i (.locked todo)).writer j = .release prev := hj
    rw [hji, setWriter_self] at hj'
    cases hj'

theorem Exclusive.release (h : Exclusive s) (hi : (s.writer i).Holds) :
    Exclusive { s.setWriter i .init with lockSeq := (s.lockSeq + 1) % 2 ^ 32 } := by
  have hnone : ∀ j, ¬ ((s.setWriter i (.init : Writer ω φ)).writer j).Holds := by
    intro j hj
    by_cases hji : j = i
    · rw [hji, setWriter_self] at hj
      exact hj
    · rw [setWriter_ne hji] at hj
      exact hji (h.unique j i hj hi)
  have hodd := h.odd_of_holds i hi
  refine ⟨?_, ?_, ?_, ?_, ?_⟩
  · exact Nat.mod_lt _ (by decide)
  · intro j hj
    exact absurd hj (hnone j)
  · intro hodd'
    have hodd'' : (s.lockSeq + 1) % 2 ^ 32 % 2 = 1 := hodd'
    omega
  · intro j k hj
    exact absurd hj (hnone j)
  · intro j prev hj
    have hj' : (s.setWriter i (.init : Writer ω φ)).writer j = .release prev := hj
    refine absurd ?_ (hnone j)
    rw [hj']
    trivial

end Writer

theorem Exclusive.of_eq (h : Exclusive s) (hseq : t.lockSeq = s.lockSeq)
    (hw : t.writer = s.writer) : Exclusive t := by
  obtain ⟨h1, h2, h3, h4, h5⟩ := h
  constructor <;> simp only [hseq, hw] <;> assumption

theorem exclusive_step (hstep : Step apply plan s a t) (h : Exclusive s) : Exclusive t := by
  cases hstep with
  | begin op hw =>
    refine h.setWriter ?_ ?_
    · simp [hw, Writer.Holds]
    · simp
  | refuse hw _ =>
    refine h.setWriter ?_ ?_
    · simp [hw, Writer.Holds]
    · simp
  | acquire hw heven hcas _ =>
    subst hcas
    rw [and_lockMask] at heven
    rw [or_lockMask heven]
    exact h.acquire heven
  | store hw =>
    refine Exclusive.of_eq (h.setWriter ?_ ?_) rfl rfl
    · simp [hw, Writer.Holds]
    · simp
  | finish hw =>
    refine h.setWriter ?_ ?_
    · simp [hw, Writer.Holds]
    · simp
  | release hw hcas =>
    subst hcas
    exact h.release (by rw [hw]; trivial)
  | readBegin prog _ => exact h.of_eq rfl rfl
  | read _ => exact h.of_eq rfl rfl
  | readEnd _ => exact h.of_eq rfl rfl

theorem exclusive_run (hrun : Run (Step apply plan) s xs t) (h : Exclusive s) : Exclusive t :=
  hrun.invariant (fun _ _ _ => exclusive_step) h

/-- The reading thread has begun with `readSeq`. -/
def Reading (readSeq : ℕ) (s : State ι σ ω φ ρ) : Prop :=
  (∃ rest, s.reader = .read readSeq rest) ∨ ∃ ret valid, s.reader = .ended ret valid

variable {data : σ} {prog : Reader σ ρ} {readSeq n : ℕ}

theorem Reading.seq_eq {seq : ℕ} {rest : Reader σ ρ} (h : Reading readSeq s)
    (hr : s.reader = .read seq rest) : seq = readSeq := by
  rcases h with ⟨rest', hr'⟩ | ⟨ret, valid, hr'⟩
  · rw [hr] at hr'
    exact (ReadGuard.read.inj hr').1
  · rw [hr] at hr'
    cases hr'

theorem Reading.not_init (h : Reading readSeq s) : s.reader ≠ .init := by
  rintro hr
  rcases h with ⟨rest', hr'⟩ | ⟨ret, valid, hr'⟩
  · rw [hr] at hr'
    cases hr'
  · rw [hr] at hr'
    cases hr'

theorem reading_step (hstep : Step apply plan s a t) (h : Reading readSeq s) :
    Reading readSeq t := by
  cases hstep with
  | readBegin _ hr => exact absurd hr h.not_init
  | read hr => exact .inl ⟨_, by rw [h.seq_eq hr]⟩
  | readEnd _ => exact .inr ⟨_, _, rfl⟩
  | _ => exact h

/-- Since the reading thread read `readSeq`, when the data were `data` and the lock was free, `n`
writers have taken the lock. -/
structure Since (data : σ) (prog : Reader σ ρ) (readSeq n : ℕ) (s : State ι σ ω φ ρ) : Prop where
  seq : (s.lockSeq + s.lockSeq % 2) % 2 ^ 32 = (readSeq + 2 * n) % 2 ^ 32
  /-- Before the first of them nothing changes. -/
  data_eq : n = 0 → s.lockSeq = readSeq ∧ s.data = data
  rest_eq : n = 0 → ∀ rest, s.reader = .read readSeq rest → rest.eval data = prog.eval data

/-- The acquisitions that a step adds. -/
def acquires (a : Label ι σ φ ρ) : ℕ := if a.isAcquire then 1 else 0

theorem since_step (hstep : Step apply plan s a t) (hex : Exclusive s)
    (hread : Reading readSeq s) (heven : readSeq % 2 = 0) (h : Since data prog readSeq n s) :
    Since data prog readSeq (n + acquires a) t := by
  -- while nobody has taken the lock since, nobody holds it
  have hfree : n = 0 → ∀ i, ¬ (s.writer i).Holds := by
    intro hn i hi
    have hseq := (h.data_eq hn).1
    have hodd := hex.odd_of_holds i hi
    omega
  cases hstep with
  | begin op hw => exact ⟨h.seq, h.data_eq, h.rest_eq⟩
  | refuse hw _ => exact ⟨h.seq, h.data_eq, h.rest_eq⟩
  | @acquire i op prev todo hw hmask hcas _ =>
    subst hcas
    rw [and_lockMask] at hmask
    have hseq := h.seq
    have hpos : n + acquires (Label.acquire i : Label ι σ φ ρ) = n + 1 := rfl
    refine ⟨?_, fun hn => ?_, fun hn => ?_⟩
    · show ((s.lockSeq ||| lockMask) + (s.lockSeq ||| lockMask) % 2) % 2 ^ 32 =
        (readSeq + 2 * (n + 1)) % 2 ^ 32
      rw [or_lockMask hmask]
      omega
    · omega
    · omega
  | @store i w todo hw =>
    refine ⟨h.seq, fun hn => ?_, h.rest_eq⟩
    refine absurd ?_ (hfree hn i)
    rw [hw]
    trivial
  | finish hw => exact ⟨h.seq, h.data_eq, h.rest_eq⟩
  | @release i prev hw hcas =>
    subst hcas
    have hholds : (s.writer i).Holds := by
      rw [hw]
      trivial
    have hodd := hex.odd_of_holds i hholds
    have hseq := h.seq
    refine ⟨?_, fun hn => absurd hholds (hfree hn i), h.rest_eq⟩
    show ((s.lockSeq + 1) % 2 ^ 32 + (s.lockSeq + 1) % 2 ^ 32 % 2) % 2 ^ 32 =
      (readSeq + 2 * n) % 2 ^ 32
    omega
  | readBegin _ hr => exact absurd hr hread.not_init
  | @read seq cell k hr =>
    refine ⟨h.seq, h.data_eq, fun hn rest hrest => ?_⟩
    obtain ⟨-, rfl⟩ := ReadGuard.read.inj hrest
    rw [hread.seq_eq hr] at hr
    have heval : (Reader.ask cell k).eval data = prog.eval data := h.rest_eq hn _ hr
    rwa [(h.data_eq hn).2]
  | readEnd _ => exact ⟨h.seq, h.data_eq, fun _ rest hrest => by cases hrest⟩

theorem since_run (hrun : Run (Step apply plan) s xs t) (hex : Exclusive s)
    (hread : Reading readSeq s) (heven : readSeq % 2 = 0) (h : Since data prog readSeq n s) :
    Since data prog readSeq (n + xs.countP Label.isAcquire) t := by
  induction hrun generalizing n with
  | refl => exact h
  | @stepL s u t a xs hst _ ih =>
    have hcount : n + (a :: xs).countP Label.isAcquire =
        n + acquires a + xs.countP Label.isAcquire := by
      rw [List.countP_cons, acquires]
      omega
    rw [hcount]
    exact ih (exclusive_step hst hex) (reading_step hst hread) (since_step hst hex hread heven h)

/-- A validated read returns what the program makes of the data at `read_begin`, when no writer
held the lock. -/
theorem read_snapshot {w : State ι σ ω φ ρ} {ret : ρ} (hex : Exclusive s)
    (hbegin : Step apply plan s (.readBegin prog) t) (hrun : Run (Step apply plan) t xs u)
    (hcount : xs.countP Label.isAcquire < 2 ^ 31) (hend : Step apply plan u .readEnd w)
    (hret : w.reader = .ended ret true) :
    (∀ i, ¬ (t.writer i).Holds) ∧ ret = prog.eval t.data := by
  have hext : Exclusive t := exclusive_step hbegin hex
  cases hbegin with
  | readBegin _ hinit =>
  cases hend with
  | @readEnd seq _ hr =>
  obtain ⟨rfl, hvalid⟩ := ReadGuard.ended.inj hret
  rw [decide_eq_true_eq, and_lockMask] at hvalid
  obtain ⟨heven, hseq⟩ := hvalid
  have hread : Reading s.lockSeq { s with reader := .read s.lockSeq prog } := .inl ⟨prog, rfl⟩
  obtain rfl : seq = s.lockSeq :=
    (hrun.invariant (fun _ _ _ => reading_step) hread).seq_eq hr
  have hbegin : Since s.data prog s.lockSeq 0 { s with reader := .read s.lockSeq prog } := by
    refine ⟨?_, fun _ => ⟨rfl, rfl⟩, fun _ rest hrest => ?_⟩
    · show (s.lockSeq + s.lockSeq % 2) % 2 ^ 32 = (s.lockSeq + 2 * 0) % 2 ^ 32
      omega
    · obtain ⟨-, rfl⟩ := ReadGuard.read.inj hrest
      rfl
  have hsince := since_run hrun hext hread heven hbegin
  have hnone : 0 + xs.countP Label.isAcquire = 0 := by
    have hlast := hsince.seq
    have hlt := hex.lockSeq_lt
    rw [← hseq] at hlast
    omega
  refine ⟨fun i hi => ?_, hsince.rest_eq hnone _ hr⟩
  have hodd : s.lockSeq % 2 = 1 := hext.odd_of_holds i hi
  omega

variable (apply plan) in
/-- A read during which no writer moves comes to its end, with the data and the sequence number
unchanged. -/
theorem exists_read (s : State ι σ ω φ ρ) (readSeq : ℕ) (prog : Reader σ ρ) :
    ∃ xs, Run (Step apply plan) { s with reader := .read readSeq prog } xs
      { s with reader := .read readSeq (.done (prog.eval s.data)) } ∧
      xs.countP Label.isAcquire = 0 := by
  induction prog with
  | done ret => exact ⟨[], .refl _, rfl⟩
  | ask cell k ih =>
    obtain ⟨xs, hrun, hcount⟩ := ih (cell s.data)
    exact ⟨.read :: xs, .stepL (.read rfl) hrun, by simpa [Label.isAcquire] using hcount⟩

end YwStorage.SeqLock

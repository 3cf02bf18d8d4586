import YwStorage.Lib.Run

/-!
The reader and writer lock of `ywspinlock.h`, one call at a time. Its state is one 16-bit word that
holds the number of readers or the mark of a writer; `none` stands for a failed assertion.
-/
namespace YwStorage.SpinLock

/-- The conversion to `int16_t`. -/
def int16 (x : ℤ) : ℤ := x.bmod (2 ^ 16)

/-- `NONE`. -/
def unlocked : ℤ := 0

/-- `WLOCK`. -/
def wlock : ℤ := -1234

structure Lock where
  status : ℤ
  deriving DecidableEq

namespace Lock
variable (l : Lock)

/-- `__sync_bool_compare_and_swap(&status, prev, next)`, which takes 16 bits of its arguments. -/
def cas (prev next : ℤ) : Bool × Lock :=
  if l.status = int16 prev then (true, ⟨int16 next⟩) else (false, l)

/-- The sum is one of `int32_t`, and cut only when it is stored. -/
def tryRLock : Bool × Lock :=
  let prev := l.status
  if prev < 0 then (false, l) else l.cas prev (prev + 1)

def tryWLock : Bool × Lock :=
  let prev := l.status
  if prev ≠ 0 then (false, l) else l.cas prev wlock

/-- Nobody else changes `status`, so the loop of a reader has to end in its first turn. -/
def release : Option Lock :=
  if l.status < 0 then
    match l.cas wlock unlocked with
    | (true, l) => some l
    | (false, _) => none
  else
    let prev := l.status
    if prev > 0 ∧ prev - 1 ≥ 0 then
      match l.cas prev (prev - 1) with
      | (true, l) => some l
      | (false, _) => none
    else none

end Lock

theorem int16_of_lt {x : ℤ} (hlo : 0 ≤ x) (hhi : x < 32768) : int16 x = x :=
  Int.bmod_eq_of_le (by omega) (by omega)

theorem int16_next {n : ℕ} (h : n < 32767) : int16 (n + 1) = (n + 1 : ℕ) := by
  rw [int16_of_lt (by omega) (by omega)]
  rfl

section Calls
variable {x : ℤ}

/-- A reader is counted in 16 bits. -/
theorem tryRLock_shared (hlo : 0 ≤ x) (hhi : x < 32768) :
    Lock.tryRLock ⟨x⟩ = (true, ⟨int16 (x + 1)⟩) := by
  have hprev := int16_of_lt hlo hhi
  simp only [Lock.tryRLock, Lock.cas, hprev, if_true]
  exact if_neg hlo.not_gt

theorem tryWLock_held {l : Lock} (h : l.status ≠ 0) : l.tryWLock = (false, l) := if_pos h

theorem release_shared (hlo : 0 < x) (hhi : x < 32768) :
    Lock.release ⟨x⟩ = some ⟨x - 1⟩ := by
  have hprev := int16_of_lt hlo.le hhi
  have hnext : int16 (x - 1) = x - 1 := int16_of_lt (by omega) (by omega)
  have hassert : x > 0 ∧ x - 1 ≥ 0 := ⟨hlo, by omega⟩
  simp only [Lock.release, Lock.cas, hprev, hnext, hassert, hlo.not_gt, if_true, if_false,
    and_self]

end Calls

inductive Kind
  | read
  | write
  deriving DecidableEq

/-- A call of a client; a release names the acquisition that it matches. -/
inductive Call
  | tryRLock
  | tryWLock
  | release (kind : Kind)
  deriving DecidableEq

/-- The lock beside the numbers of read and write locks that the clients hold. -/
structure State where
  lock : Lock
  readers : ℕ
  writers : ℕ
  deriving DecidableEq

def initial : State := ⟨⟨0⟩, 0, 0⟩

namespace State
variable (s : State)

/-- Some client holds the lock that the call releases. -/
def Allowed : Call → Prop
  | .tryRLock | .tryWLock => True
  | .release .read => 0 < s.readers
  | .release .write => 0 < s.writers

instance : DecidablePred s.Allowed
  | .tryRLock | .tryWLock => inferInstanceAs (Decidable True)
  | .release .read | .release .write => inferInstanceAs (Decidable (_ < _))

def act : Call → Option State
  | .tryRLock =>
    let r := s.lock.tryRLock
    some { s with lock := r.2, readers := if r.1 then s.readers + 1 else s.readers }
  | .tryWLock =>
    let r := s.lock.tryWLock
    some { s with lock := r.2, writers := if r.1 then s.writers + 1 else s.writers }
  | .release .read => s.lock.release.map fun lock => { s with lock, readers := s.readers - 1 }
  | .release .write => s.lock.release.map fun lock => { s with lock, writers := s.writers - 1 }

/-- The word counts the readers, or marks the only writer. -/
def Law : Prop :=
  s.lock.status = s.readers ∧ s.writers = 0 ∨
    s.lock.status = wlock ∧ s.writers = 1 ∧ s.readers = 0

/-- A call keeps the count of the readers in the word. -/
def Counted : Call → Prop
  | .tryRLock => s.readers < 32767
  | .tryWLock | .release _ => True

instance : DecidablePred s.Counted
  | .tryRLock => inferInstanceAs (Decidable (_ < _))
  | .tryWLock | .release _ => inferInstanceAs (Decidable True)

end State

/-- A call that returns. -/
def Step (s : State) (a : Call) (t : State) : Prop := s.Allowed a ∧ s.act a = some t

section Law
variable {s t : State} {a : Call} {xs : List Call}

theorem law_shared {n : ℕ} : State.Law ⟨⟨n⟩, n, 0⟩ := Or.inl ⟨rfl, rfl⟩

/-- The states that the law allows: some readers, or a writer. -/
theorem law_cases (h : s.Law) :
    (∃ n : ℕ, s = ⟨⟨n⟩, n, 0⟩) ∨ s = ⟨⟨wlock⟩, 0, 1⟩ := by
  obtain ⟨⟨status⟩, readers, writers⟩ := s
  rcases h with ⟨hstatus, hwriters⟩ | ⟨hstatus, hwriters, hreaders⟩
  · refine Or.inl ⟨readers, ?_⟩
    simp_all
  · refine Or.inr ?_
    simp_all

/-- The word has space for the readers. -/
def Fits (s : State) : Prop := s.Law ∧ s.readers < 32768

theorem fits_initial : Fits initial := ⟨Or.inl ⟨rfl, rfl⟩, by decide⟩

theorem act_tryWLock (h : Fits s) : ∃ t, s.act .tryWLock = some t ∧ Fits t := by
  obtain ⟨hlaw, hfits⟩ := h
  rcases law_cases hlaw with ⟨n, rfl⟩ | rfl
  · rcases Nat.eq_zero_or_pos n with rfl | hn
    · exact ⟨⟨⟨wlock⟩, 0, 1⟩, rfl, Or.inr ⟨rfl, rfl, rfl⟩, by decide⟩
    · have htry := tryWLock_held (l := ⟨n⟩) (by simpa using hn.ne')
      exact ⟨⟨⟨n⟩, n, 0⟩, by simp [State.act, htry], hlaw, hfits⟩
  · exact ⟨⟨⟨wlock⟩, 0, 1⟩, rfl, hlaw, hfits⟩

theorem act_release (h : Fits s) {kind : Kind} (hheld : s.Allowed (.release kind)) :
    ∃ t, s.act (.release kind) = some t ∧ Fits t := by
  obtain ⟨hlaw, hfits⟩ := h
  rcases law_cases hlaw with ⟨n, rfl⟩ | rfl
  · cases kind with
    | read =>
      obtain ⟨m, rfl⟩ : ∃ m, n = m + 1 := ⟨n - 1, by simp only [State.Allowed] at hheld; omega⟩
      have hfits' : m + 1 < 32768 := hfits
      have hrel := release_shared (x := (m + 1 : ℕ)) (by omega) (by omega)
      rw [show ((m + 1 : ℕ) : ℤ) - 1 = m by omega] at hrel
      refine ⟨⟨⟨m⟩, m, 0⟩, ?_, law_shared, Nat.lt_of_succ_lt hfits⟩
      simp only [State.act, hrel, Option.map_some, Nat.add_sub_cancel]
    | write => exact absurd hheld (Nat.lt_irrefl 0)
  · cases kind with
    | read => exact absurd hheld (Nat.lt_irrefl 0)
    | write => exact ⟨⟨⟨unlocked⟩, 0, 0⟩, rfl, Or.inl ⟨rfl, rfl⟩, by decide⟩

/-- The word after one more reader. -/
theorem act_tryRLock_shared {n : ℕ} (h : n < 32768) :
    State.act ⟨⟨n⟩, n, 0⟩ .tryRLock = some ⟨⟨int16 (n + 1)⟩, n + 1, 0⟩ := by
  have htry : Lock.tryRLock ⟨n⟩ = (true, ⟨int16 (n + 1)⟩) :=
    tryRLock_shared (Int.natCast_nonneg n) (by omega)
  rw [State.act]
  simp only [htry, if_true]

/-- One more reader keeps the law as long as the word can count it. -/
theorem act_tryRLock (h : Fits s) :
    ∃ t, s.act .tryRLock = some t ∧ (t.Law ↔ s.Counted .tryRLock) ∧
      (s.Counted .tryRLock → Fits t) := by
  obtain ⟨hlaw, hfits⟩ := h
  rcases law_cases hlaw with ⟨n, rfl⟩ | rfl
  · refine ⟨_, act_tryRLock_shared hfits, ?_⟩
    rw [State.Counted]
    have hfits' : n < 32768 := hfits
    by_cases hn : n < 32767
    · have hlaw' : State.Law ⟨⟨int16 (n + 1)⟩, n + 1, 0⟩ := by
        rw [int16_next hn]
        exact law_shared
      have hlt : n + 1 < 32768 := by omega
      exact ⟨⟨fun _ => hn, fun _ => hlaw'⟩, fun _ => ⟨hlaw', hlt⟩⟩
    · obtain rfl : n = 32767 := by omega
      have hlaw' : ¬State.Law ⟨⟨int16 (32767 + 1)⟩, 32767 + 1, 0⟩ := by
        rintro (⟨h, -⟩ | ⟨-, h, -⟩)
        · exact absurd h (by decide)
        · exact absurd h (by decide)
      exact ⟨⟨fun h => absurd h hlaw', fun h => absurd h hn⟩, fun h => absurd h hn⟩
  · exact ⟨⟨⟨wlock⟩, 0, 1⟩, rfl, ⟨fun _ => by decide, fun _ => hlaw⟩, fun _ => ⟨hlaw, hfits⟩⟩

theorem fits_step (h : Lts.restrict Step (fun s a => s.Counted a) s a t) (hs : Fits s) :
    Fits t := by
  obtain ⟨⟨hallowed, hact⟩, hcounted⟩ := h
  cases a with
  | tryRLock =>
    obtain ⟨t', hact', -, hfits⟩ := act_tryRLock hs
    cases hact.symm.trans hact'
    exact hfits hcounted
  | tryWLock =>
    obtain ⟨t', hact', hfits⟩ := act_tryWLock hs
    cases hact.symm.trans hact'
    exact hfits
  | release kind =>
    obtain ⟨t', hact', hfits⟩ := act_release hs hallowed
    cases hact.symm.trans hact'
    exact hfits

/-- What the law says: no reader beside a writer, and a lock that nobody holds is free. -/
theorem State.Law.exclusive (h : s.Law) :
    (s.readers = 0 ∨ s.writers = 0) ∧ s.writers ≤ 1 ∧
      (s.readers = 0 → s.writers = 0 → s.lock.status = unlocked) := by
  rcases law_cases h with ⟨n, rfl⟩ | rfl
  · exact ⟨Or.inr rfl, Nat.zero_le 1, fun hn _ => by simpa [unlocked] using hn⟩
  · exact ⟨Or.inl rfl, le_rfl, fun _ hw => absurd hw (by decide)⟩

/-- As long as no reader is added to 32767 others, every call returns, the word counts the locks
held, and only such a call breaks that. -/
theorem lock_law (h : Lts.Run (Lts.restrict Step fun s a => s.Counted a) initial xs s) :
    s.Law ∧ (s.readers = 0 ∨ s.writers = 0) ∧
      (s.readers = 0 → s.writers = 0 → s.lock.status = unlocked) ∧
      ∀ a, s.Allowed a → ∃ t, s.act a = some t ∧ (t.Law ↔ s.Counted a) := by
  have hfits : Fits s := h.invariant (fun _ _ _ => fits_step) fits_initial
  obtain ⟨hapart, -, hfree⟩ := hfits.1.exclusive
  refine ⟨hfits.1, hapart, hfree, fun a hallowed => ?_⟩
  cases a with
  | tryRLock =>
    obtain ⟨t, hact, hiff, -⟩ := act_tryRLock hfits
    exact ⟨t, hact, hiff⟩
  | tryWLock =>
    obtain ⟨t, hact, ht⟩ := act_tryWLock hfits
    exact ⟨t, hact, fun _ => trivial, fun _ => ht.1⟩
  | release kind =>
    obtain ⟨t, hact, ht⟩ := act_release hfits hallowed
    exact ⟨t, hact, fun _ => trivial, fun _ => ht.1⟩

/-- Two readers, of whom one leaves. -/
theorem two_readers_law :
    ∃ s, Lts.Run (Lts.restrict Step fun s a => s.Counted a) initial
        [.tryRLock, .tryRLock, .release .read] s ∧ s.lock.status = s.readers := by
  have hrun : Lts.Run (Lts.restrict Step fun s a => s.Counted a) initial
      [.tryRLock, .tryRLock, .release .read] ⟨⟨1⟩, 1, 0⟩ :=
    .stepL ⟨⟨trivial, rfl⟩, by decide⟩ (.stepL ⟨⟨trivial, rfl⟩, by decide⟩
      (.single ⟨⟨by decide, rfl⟩, trivial⟩))
  refine ⟨_, hrun, ?_⟩
  rcases (lock_law hrun).1 with h | h
  · exact h.1
  · exact absurd h.2.1 (by decide)

theorem run_readers {n : ℕ} (h : n < 32768) :
    Lts.Run Step initial (List.replicate n .tryRLock) ⟨⟨n⟩, n, 0⟩ := by
  induction n with
  | zero => exact .refl _
  | succ n ih =>
    have hnext := int16_next (n := n) (by omega)
    have hact := act_tryRLock_shared (n := n) (by omega)
    rw [hnext] at hact
    rw [List.replicate_succ']
    exact (ih (by omega)).snoc ⟨trivial, hact⟩

/-- The reader after 32767 others makes the word negative, and no reader can leave any more. -/
theorem crowded_lock_stuck :
    ∃ s, Lts.Run Step initial (List.replicate 32768 .tryRLock) s ∧ s.readers = 32768 ∧
      s.lock.status = -32768 ∧ s.Allowed (.release .read) ∧ s.act (.release .read) = none := by
  have hstep : Step ⟨⟨(32767 : ℕ)⟩, 32767, 0⟩ .tryRLock ⟨⟨int16 (32767 + 1)⟩, 32767 + 1, 0⟩ :=
    ⟨trivial, act_tryRLock_shared (by decide)⟩
  have hrun := (run_readers (n := 32767) (by decide)).snoc hstep
  rw [← List.replicate_succ'] at hrun
  exact ⟨_, hrun, by decide, by decide, by decide, by decide⟩

end Law
end YwStorage.SpinLock

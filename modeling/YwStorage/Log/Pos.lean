import YwStorage.Lib.Run
import YwStorage.Lib.Threads

/-!
The log position of `ywpos.h`: threads that reserve ranges by compare-and-swap.

Memory is sequentially consistent and every step is one access of `_val`. Positions are natural
numbers, and `ALIGN` is `2 ^ k`.
-/
namespace YwStorage.Log
open Lts Threads

/-- What a thread in `go_forward` does next. -/
inductive Forward
  /-- Read `_val` and test whether the range fits into the block. -/
  | read (size : ℕ)
  /-- The compare-and-swap of `_cas_next_align`. -/
  | skip (size prev : ℕ)
  /-- Read `_val` after a successful skip; the test is not repeated. -/
  | skipped (size : ℕ)
  | reserve (size prev : ℕ)
  | done (pos size : ℕ)
  deriving DecidableEq

namespace Forward
variable (k : ℕ)

/-- `uint32_t off = prev & (ALIGN-1)`. -/
def off (prev : ℕ) : ℕ := (prev &&& (2 ^ k - 1)) % 2 ^ 32

/-- `(prev + (ALIGN-1)) & ~(ALIGN-1)`. -/
def nextAlign (prev : ℕ) : ℕ :=
  (prev + (2 ^ k - 1)) - ((prev + (2 ^ k - 1)) &&& (2 ^ k - 1))

/-- One access of `_val`, with the new value. -/
def step (val : ℕ) : Forward → ℕ × Forward
  | read size => (val, if off k val + size > 2 ^ k then skip size val else reserve size val)
  | skip size prev => if val = prev then (nextAlign k prev, skipped size) else (val, read size)
  | skipped size => (val, reserve size val)
  | reserve size prev => if val = prev then (prev + size, done prev size) else (val, read size)
  | done pos size => (val, done pos size)

theorem off_eq {val : ℕ} (h : val % 2 ^ k < 2 ^ 32) : off k val = val % 2 ^ k := by
  rw [off, Nat.and_two_pow_sub_one_eq_mod, Nat.mod_eq_of_lt h]

theorem le_nextAlign (prev : ℕ) : prev ≤ nextAlign k prev := by
  have hlt : (prev + (2 ^ k - 1)) % 2 ^ k < 2 ^ k := Nat.mod_lt _ (Nat.two_pow_pos k)
  rw [nextAlign, Nat.and_two_pow_sub_one_eq_mod]
  omega

/-- The position never moves back. -/
theorem le_step (val : ℕ) (pc : Forward) : val ≤ (pc.step k val).1 := by
  cases pc with
  | read size => exact Nat.le_refl _
  | skip size prev =>
    by_cases h : val = prev
    · subst h
      simpa [step] using le_nextAlign k val
    · simp [step, h]
  | skipped size => exact Nat.le_refl _
  | reserve size prev =>
    by_cases h : val = prev
    · subst h
      simp [step]
    · simp [step, h]
  | done pos size => exact Nat.le_refl _

/-- Only a successful reservation ends the call. -/
theorem step_eq_done {val pos size : ℕ} {pc : Forward} (hdone : ∀ pos size, pc ≠ done pos size)
    (h : (pc.step k val).2 = done pos size) :
    pc = reserve size pos ∧ pos = val ∧ (pc.step k val).1 = pos + size := by
  cases pc with
  | read size =>
    simp only [step] at h
    split at h <;> cases h
  | skip size prev =>
    simp only [step] at h
    split at h <;> cases h
  | skipped size => cases h
  | reserve size' prev =>
    by_cases hval : val = prev
    · subst hval
      simp only [step, if_true, done.injEq] at h ⊢
      obtain ⟨rfl, rfl⟩ := h
      exact ⟨rfl, rfl, rfl⟩
    · simp [step, hval] at h
  | done pos size => exact absurd rfl (hdone pos size)

end Forward

structure Pos (ι : Type*) where
  val : ℕ
  thread : ι → Option Forward
  /-- The ranges returned so far, as position and size. -/
  ranges : List (ℕ × ℕ)

namespace Pos
variable {ι : Type*} [DecidableEq ι] {k : ℕ} {s t : Pos ι}

inductive Label (ι : Type*)
  | call (i : ι) (size : ℕ)
  | run (i : ι)
  deriving DecidableEq

/-- The range that a thread has just got. -/
def got : Forward → List (ℕ × ℕ)
  | .done pos size => [(pos, size)]
  | _ => []

def init (val : ℕ) : Pos ι := ⟨val, fun _ => none, []⟩

/-- A thread calls `go_forward`, or makes its next access. -/
def act (k : ℕ) (s : Pos ι) : Label ι → Option (Pos ι)
  | .call i size =>
    match s.thread i with
    | none | some (.done ..) =>
      if 0 < size ∧ size ≤ 2 ^ k then
        some { s with thread := Function.update s.thread i (some (.read size)) }
      else none
    | _ => none
  | .run i =>
    match s.thread i with
    | none | some (.done ..) => none
    | some pc =>
      some ⟨(pc.step k s.val).1, Function.update s.thread i (some (pc.step k s.val).2),
        got (pc.step k s.val).2 ++ s.ranges⟩

def Step (k : ℕ) (s : Pos ι) (a : Label ι) (t : Pos ι) : Prop := s.act k a = some t

/-- The offset is not cut off, and the range fits at the position read after a skip. -/
def FitsAt (k val : ℕ) : Forward → Prop
  | .read _ => val % 2 ^ k < 2 ^ 32
  | .skipped size => val % 2 ^ k + size ≤ 2 ^ k
  | _ => True

def Fits (k : ℕ) (s : Pos ι) : Label ι → Prop
  | .run i => ∀ pc, s.thread i = some pc → FitsAt k s.val pc
  | .call .. => True

/-- What a thread knows before it reserves. -/
def Safe (k : ℕ) : Forward → Prop
  | .read size | .skip size _ | .skipped size => 0 < size ∧ size ≤ 2 ^ k
  | .reserve size prev => 0 < size ∧ prev % 2 ^ k + size ≤ 2 ^ k
  | .done .. => True

structure Reserved (k : ℕ) (s : Pos ι) : Prop where
  safe : ∀ i pc, s.thread i = some pc → Safe k pc
  below : ∀ r ∈ s.ranges, r.1 + r.2 ≤ s.val
  disjoint : s.ranges.Pairwise fun r r' => r'.1 + r'.2 ≤ r.1
  inside : ∀ r ∈ s.ranges, 0 < r.2 ∧ r.1 % 2 ^ k + r.2 ≤ 2 ^ k

theorem safe_step {val : ℕ} {pc : Forward} (h : Safe k pc) (hfits : FitsAt k val pc) :
    Safe k (pc.step k val).2 := by
  cases pc with
  | read size =>
    by_cases hoff : Forward.off k val + size > 2 ^ k
    · simpa [Forward.step, hoff, Safe] using h
    · rw [Forward.off_eq k hfits] at hoff
      have hfit : val % 2 ^ k + size ≤ 2 ^ k := by omega
      simpa [Forward.step, Forward.off_eq k hfits, hoff] using ⟨h.1, hfit⟩
  | skip size prev =>
    by_cases hval : val = prev
    · simpa [Forward.step, hval, Safe] using h
    · simpa [Forward.step, hval, Safe] using h
  | skipped size => exact ⟨h.1, hfits⟩
  | reserve size prev =>
    by_cases hval : val = prev
    · simp [Forward.step, hval, Safe]
    · have hle : size ≤ 2 ^ k := by
        have := h.2
        omega
      simpa [Forward.step, hval] using ⟨h.1, hle⟩
  | done pos size => trivial

/-- A range that a thread gets begins where the others end. -/
theorem got_step {val : ℕ} {pc : Forward} (hdone : ∀ pos size, pc ≠ .done pos size)
    (h : Safe k pc) {r : ℕ × ℕ} (hr : r ∈ got (pc.step k val).2) :
    r.1 = val ∧ r.1 + r.2 = (pc.step k val).1 ∧ 0 < r.2 ∧ r.1 % 2 ^ k + r.2 ≤ 2 ^ k := by
  cases hpc : (pc.step k val).2 with
  | done pos size =>
    rw [hpc] at hr
    obtain rfl := List.mem_singleton.mp hr
    obtain ⟨hreserve, hpos, hval⟩ := Forward.step_eq_done k hdone hpc
    rw [hreserve] at h
    exact ⟨hpos, hval.symm, h⟩
  | _ =>
    rw [hpc] at hr
    cases hr

theorem got_pairwise (pc : Forward) (P : ℕ × ℕ → ℕ × ℕ → Prop) : (got pc).Pairwise P := by
  cases pc with
  | done pos size => exact List.pairwise_singleton _ _
  | _ => exact .nil

theorem Reserved.call (h : s.Reserved k) (i : ι) {size : ℕ} (hsize : 0 < size ∧ size ≤ 2 ^ k) :
    Reserved k { s with thread := Function.update s.thread i (some (.read size)) } := by
  refine ⟨?_, h.below, h.disjoint, h.inside⟩
  intro j pc hj
  rcases update_eq_some hj with ⟨-, heq⟩ | ⟨-, hj⟩
  · cases heq
    exact hsize
  · exact h.safe j pc hj

theorem Reserved.run (h : s.Reserved k) {i : ι} {pc : Forward} (hi : s.thread i = some pc)
    (hdone : ∀ pos size, pc ≠ .done pos size) (hfits : FitsAt k s.val pc) :
    Reserved k ⟨(pc.step k s.val).1, Function.update s.thread i (some (pc.step k s.val).2),
      got (pc.step k s.val).2 ++ s.ranges⟩ := by
  have hsafe := h.safe i pc hi
  have hle := Forward.le_step k s.val pc
  refine ⟨?_, ?_, ?_, ?_⟩
  · intro j pc' hj
    rcases update_eq_some hj with ⟨-, heq⟩ | ⟨-, hj⟩
    · cases heq
      exact safe_step hsafe hfits
    · exact h.safe j pc' hj
  · intro r hr
    rcases List.mem_append.mp hr with hr | hr
    · exact Nat.le_of_eq (got_step hdone hsafe hr).2.1
    · exact Nat.le_trans (h.below r hr) hle
  · refine List.pairwise_append.mpr ⟨got_pairwise _ _, h.disjoint, ?_⟩
    intro r hr r' hr'
    rw [(got_step hdone hsafe hr).1]
    exact h.below r' hr'
  · intro r hr
    rcases List.mem_append.mp hr with hr | hr
    · exact (got_step hdone hsafe hr).2.2
    · exact h.inside r hr

theorem reserved_step {a : Label ι} (hstep : Step k s a t) (hfits : s.Fits k a)
    (h : s.Reserved k) : t.Reserved k := by
  cases a with
  | call i size =>
    rw [Step, act] at hstep
    split at hstep
    all_goals
      first
        | cases hstep
        | split at hstep
          · cases hstep
            exact h.call i ‹_›
          · cases hstep
  | run i =>
    rw [Step, act] at hstep
    split at hstep
    · cases hstep
    · cases hstep
    · rename_i pc hdone hi
      cases hstep
      exact h.run hi hdone (hfits pc hi)

/-- The first and the last byte of a range lie in the same block. -/
theorem same_block {pos size align : ℕ} (hsize : 0 < size) (h : pos % align + size ≤ align) :
    pos / align = (pos + size - 1) / align := by
  have hpos : align * (pos / align) + pos % align = pos := Nat.div_add_mod pos align
  have halign : 0 < align := by omega
  have hlast : pos + size - 1 = align * (pos / align) + (pos % align + size - 1) := by omega
  rw [hlast, Nat.mul_add_div halign, Nat.div_eq_of_lt (by omega : pos % align + size - 1 < align)]
  rfl

/-- In every run whose steps fit, the ranges returned by `go_forward` are disjoint, and each lies in
one aligned block. -/
theorem ranges_disjoint_inside {val : ℕ} {xs : List (Label ι)}
    (hrun : Run (restrict (Step k) (Fits k)) (init val) xs s) :
    (s.ranges.Pairwise fun r r' => r'.1 + r'.2 ≤ r.1) ∧
      ∀ r ∈ s.ranges, r.1 / 2 ^ k = (r.1 + r.2 - 1) / 2 ^ k := by
  have hinit : Reserved k (init val : Pos ι) := by
    refine ⟨?_, ?_, .nil, ?_⟩ <;> simp [init]
  have h : Reserved k s :=
    hrun.invariant (fun _ _ _ hstep => reserved_step hstep.1 hstep.2) hinit
  exact ⟨h.disjoint, fun r hr => same_block (h.inside r hr).1 (h.inside r hr).2⟩

instance (val : ℕ) (pc : Forward) : Decidable (FitsAt k val pc) := by
  unfold FitsAt
  split <;> infer_instance

/-- Thread `true` skips to the next block and stalls; thread `false` reserves its beginning. -/
def skipSchedule (size : ℕ) : List (Label Bool) :=
  [.call true 10, .run true, .run true, .call false size, .run false, .run false, .run true,
    .run true]

/-- The condition as a test, for threads that are all at known points. -/
def fits (k : ℕ) (s : Pos Bool) : Label Bool → Bool
  | .run i => (s.thread i).all fun pc => FitsAt k s.val pc
  | .call .. => true

theorem skipSchedule_fits : ∃ s, Run (restrict (Step 4) (Fits 4)) (init 10) (skipSchedule 5) s ∧
    s.ranges = [(21, 10), (16, 5)] ∧ ∀ r ∈ s.ranges, r.1 / 2 ^ 4 = (r.1 + r.2 - 1) / 2 ^ 4 := by
  obtain ⟨s, hrun, hranges⟩ := exists_run_acts (act 4) (fits 4) (init 10)
    (skipSchedule 5) ranges (show _ = some (skipSchedule 5, [(21, 10), (16, 5)]) by decide +kernel)
  have hrun' : Run (restrict (Step 4) (Fits 4)) (init 10) (skipSchedule 5) s := by
    refine hrun.mono fun s a t h => ⟨h.1, ?_⟩
    cases a with
    | call i size => trivial
    | run i =>
      intro pc hpc
      have hfits : fits 4 s (.run i) = true := h.2
      rw [fits, hpc] at hfits
      simpa using hfits
  exact ⟨s, hrun', hranges, (ranges_disjoint_inside hrun').2⟩

/-- With sizes 10 the second range does not fit behind the first any more. -/
theorem skipSchedule_crosses : ∃ s, Run (Step 4) (init 10) (skipSchedule 10) s ∧
    (26, 10) ∈ s.ranges ∧ 26 / 2 ^ 4 ≠ (26 + 10 - 1) / 2 ^ 4 := by
  obtain ⟨s, hrun, hranges⟩ := exists_run_acts (act 4) (fun _ _ => true) (init 10)
    (skipSchedule 10) ranges
    (show _ = some (skipSchedule 10, [(26, 10), (16, 10)]) by decide +kernel)
  exact ⟨s, hrun.mono fun _ _ _ h => h.1, by simp [hranges], by decide⟩

end Pos
end YwStorage.Log

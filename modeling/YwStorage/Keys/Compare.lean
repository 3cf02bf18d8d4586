import YwStorage.Format.Barray

/-!
The comparisons of the key types (`ywtypes.h`, `ywbarray.h`, `ywkey.h`). A search takes
`compare(a, b) > 0` for "`a` is below `b`" and `compare(a, b) == 0` for "the same key".
-/
namespace YwStorage.Format
open Bytes

namespace Barray
variable {a b c : Barray}

def compare (a right : Barray) : ℤ :=
  let ret := memcmp a.value right.value 0 (min a.len right.len)
  if ret ≠ 0 then ret else if a.len < right.len then 1 else 0

/-- Equal length and bytes. -/
def SameBytes (a b : Barray) : Prop := a.len = b.len ∧ ∀ j, j < a.len → a.value j = b.value j

/-- `b` goes on where `a` ends. -/
def ProperPrefix (a b : Barray) : Prop := a.len < b.len ∧ ∀ j, j < a.len → a.value j = b.value j

/-- What a search needs of three keys. -/
structure Lawful (a b c : Barray) : Prop where
  zero : a.compare b = 0 ↔ SameBytes a b
  opposite : (a.compare b).sign = -(b.compare a).sign
  trans : a.compare b < 0 → b.compare c < 0 → a.compare c < 0

theorem SameBytes.symm (h : SameBytes a b) : SameBytes b a :=
  ⟨h.1.symm, fun j hj => (h.2 j (h.1 ▸ hj)).symm⟩

theorem compare_of_differ (h : memcmp a.value b.value 0 (min a.len b.len) ≠ 0) :
    a.compare b = memcmp a.value b.value 0 (min a.len b.len) := if_pos h

theorem compare_of_agree (h : memcmp a.value b.value 0 (min a.len b.len) = 0) :
    a.compare b = if a.len < b.len then 1 else 0 := if_neg (not_not.mpr h)

theorem compare_neg_iff :
    a.compare b < 0 ↔ memcmp a.value b.value 0 (min a.len b.len) < 0 := by
  by_cases hzero : memcmp a.value b.value 0 (min a.len b.len) = 0
  · rw [compare_of_agree hzero, hzero]
    split <;> decide
  · rw [compare_of_differ hzero]

theorem compare_trans (hab : a.compare b < 0) (hbc : b.compare c < 0) : a.compare c < 0 := by
  rw [compare_neg_iff] at hab hbc ⊢
  exact memcmp_trans hab hbc

theorem memcmp_eq_zero_of_agree (hlen : a.len ≤ b.len)
    (h : ∀ j, j < a.len → a.value j = b.value j) :
    memcmp a.value b.value 0 (min a.len b.len) = 0 :=
  memcmp_eq_zero_iff.mpr fun j _ hj => h j (by omega)

/-- A proper prefix is told apart from one side only. -/
theorem ProperPrefix.compare_eq (h : ProperPrefix a b) : a.compare b = 1 ∧ b.compare a = 0 := by
  have hzero := memcmp_eq_zero_of_agree h.1.le h.2
  have hswap := memcmp_swap a.value b.value 0 (min a.len b.len)
  rw [hzero, neg_zero, Nat.min_comm] at hswap
  exact ⟨(compare_of_agree hzero).trans (if_pos h.1),
    (compare_of_agree hswap).trans (if_neg h.1.le.not_gt)⟩

theorem ProperPrefix.not_same (h : ProperPrefix a b) : ¬SameBytes a b := fun hs =>
  absurd hs.1 h.1.ne

/-- Arrays that agree as far as both go are the same, or one goes on. -/
theorem prefix_or_same (h : memcmp a.value b.value 0 (min a.len b.len) = 0) :
    SameBytes a b ∨ ProperPrefix a b ∨ ProperPrefix b a := by
  have hsame : ∀ j, j < min a.len b.len → a.value j = b.value j := fun j hj =>
    memcmp_eq_zero_iff.mp h j (Nat.zero_le j) (by omega)
  rcases Nat.lt_trichotomy a.len b.len with hlt | heq | hgt
  · exact Or.inr (Or.inl ⟨hlt, fun j hj => hsame j (by omega)⟩)
  · exact Or.inl ⟨heq, fun j hj => hsame j (by omega)⟩
  · exact Or.inr (Or.inr ⟨hgt, fun j hj => (hsame j (by omega)).symm⟩)

theorem SameBytes.compare_eq (h : SameBytes a b) : a.compare b = 0 := by
  have hzero := memcmp_eq_zero_of_agree h.1.le h.2
  exact (compare_of_agree hzero).trans (if_neg h.1.ge.not_gt)

/-- `compare` is a lawful comparison except between an array and a longer one that starts with
it. -/
theorem compare_lawful_iff (a b c : Barray) :
    Lawful a b c ↔ ¬ProperPrefix a b ∧ ¬ProperPrefix b a := by
  constructor
  · intro h
    refine ⟨fun hp => ?_, fun hp => ?_⟩
    · have hop := h.opposite
      rw [hp.compare_eq.1, hp.compare_eq.2] at hop
      exact absurd hop (by decide)
    · exact hp.not_same (h.zero.mp hp.compare_eq.2).symm
  · rintro ⟨hab, hba⟩
    by_cases hzero : memcmp a.value b.value 0 (min a.len b.len) = 0
    · have hs : SameBytes a b := by
        rcases prefix_or_same hzero with hs | hp | hp
        · exact hs
        · exact absurd hp hab
        · exact absurd hp hba
      refine ⟨⟨fun _ => hs, fun _ => hs.compare_eq⟩, ?_, compare_trans⟩
      rw [hs.compare_eq, hs.symm.compare_eq]
      rfl
    · have hswap := memcmp_swap a.value b.value 0 (min a.len b.len)
      have hne : memcmp b.value a.value 0 (min b.len a.len) ≠ 0 := by
        rw [Nat.min_comm, hswap]
        exact neg_ne_zero.mpr hzero
      refine ⟨⟨fun h => absurd (compare_of_differ hzero ▸ h) hzero, fun hs => ?_⟩, ?_,
        compare_trans⟩
      · exact absurd (memcmp_eq_zero_of_agree hs.1.le hs.2) hzero
      · rw [compare_of_differ hzero, compare_of_differ hne, Nat.min_comm b.len, hswap, Int.sign_neg,
          neg_neg]

/-- The empty array and an array of one byte: different, and equal from one side. -/
theorem empty_array_not_lawful :
    (make 0 fun _ => 0).compare (make 1 fun _ => 0) = 1 ∧
      (make 1 fun _ => 0).compare (make 0 fun _ => 0) = 0 ∧
      ¬SameBytes (make 1 fun _ => 0) (make 0 fun _ => 0) ∧
      ¬Lawful (make 0 fun _ => 0) (make 1 fun _ => 0) (make 0 fun _ => 0) := by
  have hp : ProperPrefix (make 0 fun _ => 0) (make 1 fun _ => 0) :=
    ⟨by decide, fun j hj => absurd hj (by simp)⟩
  refine ⟨hp.compare_eq.1, hp.compare_eq.2, fun hs => hp.not_same hs.symm, fun h => ?_⟩
  have hop := h.opposite
  rw [hp.compare_eq.1, hp.compare_eq.2] at hop
  exact absurd hop (by decide)

end Barray
end YwStorage.Format

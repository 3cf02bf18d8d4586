import Mathlib

/-!
Allocators that may run out. What an allocator hands out next depends on what is in use; in a run
every allocation sees another set, so that every pattern of failures is the pattern of some
allocator.
-/
namespace Supply

/-- An allocator that never fails hands out what is not in use. -/
def Fresh (alloc : Finset ℕ → ℕ) : Prop := ∀ live, alloc live ∉ live

/-- Only nodes that are not in use are handed out. -/
def FreshSupply (supply : Finset ℕ → Option ℕ) : Prop := ∀ live a, supply live = some a → a ∉ live

/-- The nodes in use after `n` allocations. -/
def grown (supply : Finset ℕ → Option ℕ) : ℕ → Finset ℕ → Option (Finset ℕ)
  | 0, live => some live
  | n + 1, live => (supply live).bind fun a => grown supply n (insert a live)

/-- The node above all that are in use. -/
def nextNode (live : Finset ℕ) : ℕ := live.sup id + 1

/-- A pool that never runs out. -/
def endless (live : Finset ℕ) : Option ℕ := some (nextNode live)

/-- An allocator that never fails and agrees with `supply` as long as that does not. -/
def total (supply : Finset ℕ → Option ℕ) (live : Finset ℕ) : ℕ :=
  (supply live).getD (nextNode live)

variable {supply : Finset ℕ → Option ℕ} {live live₁ : Finset ℕ} {a m n : ℕ}

theorem fresh_nextNode : Fresh nextNode := fun live h => by
  have : live.sup id + 1 ≤ live.sup id := Finset.le_sup (f := id) h
  omega

theorem freshSupply_endless : FreshSupply endless := by
  intro live a h
  obtain rfl := Option.some.inj h
  exact fresh_nextNode live

theorem total_endless (live : Finset ℕ) : endless live ≠ none := by simp [endless]

theorem total_eq (h : supply live = some a) : total supply live = a := by
  rw [total, h]
  rfl

theorem fresh_total (h : FreshSupply supply) : Fresh (total supply) := by
  intro live
  rw [total]
  cases hs : supply live with
  | none => exact fresh_nextNode live
  | some a => exact h live a hs

theorem grown_one (h : supply live = some a) : grown supply 1 live = some (insert a live) := by
  simp [grown, h]

theorem grown_add : grown supply (m + n) live = (grown supply m live).bind (grown supply n) := by
  induction m generalizing live with
  | zero => simp [grown]
  | succ m ih =>
    rw [Nat.succ_add, grown, grown]
    cases supply live with
    | none => rfl
    | some a => exact ih

theorem grown_trans (h : grown supply m live = some live₁) :
    grown supply (m + n) live = grown supply n live₁ := by
  rw [grown_add, h, Option.bind_some]

theorem grown_none (h : grown supply m live = none) (hmn : m ≤ n) :
    grown supply n live = none := by
  obtain ⟨d, rfl⟩ := Nat.exists_eq_add_of_le hmn
  rw [grown_add, h, Option.bind_none]

theorem grown_subset (h : grown supply n live = some live₁) : live ⊆ live₁ := by
  induction n generalizing live with
  | zero =>
    cases h
    exact fun _ h => h
  | succ n ih =>
    rw [grown] at h
    cases hs : supply live with
    | none => simp [hs] at h
    | some a =>
      rw [hs, Option.bind_some] at h
      exact (Finset.subset_insert a live).trans (ih h)

theorem exists_failure (h : grown supply n live = none) : ∃ live, supply live = none := by
  induction n generalizing live with
  | zero => cases h
  | succ n ih =>
    rw [grown] at h
    cases hs : supply live with
    | none => exact ⟨live, hs⟩
    | some a =>
      rw [hs, Option.bind_some] at h
      exact ih h

end Supply

import Mathlib

/-! Families of per-thread states in which one thread moves. -/
namespace Threads

variable {ι β : Type*} [DecidableEq ι]

/-- After an update the entry is the new one, or that of another thread. -/
theorem update_eq_some {f : ι → Option β} {i j : ι} {v : Option β} {c : β}
    (h : Function.update f i v j = some c) : (j = i ∧ v = some c) ∨ (j ≠ i ∧ f j = some c) := by
  by_cases hj : j = i
  · subst hj
    rw [Function.update_self] at h
    exact .inl ⟨rfl, h⟩
  · rw [Function.update_of_ne hj] at h
    exact .inr ⟨hj, h⟩

end Threads

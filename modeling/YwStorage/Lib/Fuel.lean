import Mathlib

/-! Loops that are given fuel, and the value they return with enough of it. -/
namespace Fuel

variable {α β : Type*} {f : ℕ → Option α} {r r' : α} {n : ℕ}

/-- Any large amount of fuel gives `r`. -/
def Returns (f : ℕ → Option α) (r : α) : Prop := ∃ n, ∀ fuel, n ≤ fuel → f fuel = some r

theorem Returns.unique (h : Returns f r) (h' : Returns f r') : r = r' := by
  obtain ⟨n, hn⟩ := h
  obtain ⟨n', hn'⟩ := h'
  have heq := (hn (max n n') (le_max_left n n')).symm.trans (hn' _ (le_max_right n n'))
  exact Option.some.inj heq

theorem Returns.of_lt (h : ∀ fuel, n < fuel → f fuel = some r) : Returns f r :=
  ⟨n + 1, fun fuel hfuel => h fuel hfuel⟩

theorem Returns.congr {g : ℕ → Option α} (h : Returns f r) (hfg : ∀ fuel, f fuel = g fuel) :
    Returns g r := by
  obtain ⟨n, hn⟩ := h
  exact ⟨n, fun fuel hfuel => (hfg fuel).symm.trans (hn fuel hfuel)⟩

/-- One turn of a loop. -/
theorem Returns.turn {g : ℕ → Option α} (h : Returns g r) (hf : ∀ fuel, f (fuel + 1) = g fuel) :
    Returns f r := by
  obtain ⟨n, hn⟩ := h
  refine .of_lt (n := n) ?_
  rintro (_ | fuel) hfuel
  · exact absurd hfuel (Nat.not_lt_zero n)
  · exact (hf fuel).trans (hn fuel (Nat.le_of_lt_succ hfuel))

theorem Returns.const (r : α) : Returns (fun _ => some r) r := ⟨0, fun _ _ => rfl⟩

theorem Returns.bind {g : α → Option β} {b : β} (h : Returns f r) (hg : g r = some b) :
    Returns (fun fuel => (f fuel).bind g) b := by
  obtain ⟨n, hn⟩ := h
  refine ⟨n, fun fuel hfuel => ?_⟩
  exact (congrArg (Option.bind · g) (hn fuel hfuel)).trans hg

theorem Returns.map {g : α → β} (h : Returns f r) :
    Returns (fun fuel => (f fuel).map g) (g r) := by
  obtain ⟨n, hn⟩ := h
  exact ⟨n, fun fuel hfuel => congrArg (Option.map g) (hn fuel hfuel)⟩

/-- Where more fuel gives the same, there is no other value. -/
theorem Returns.eq_of_mono (h : Returns f r) (hmono : ∀ n r, f n = some r → f (n + 1) = some r)
    (hn : f n = some r') : r' = r := by
  have hlater : ∀ d, f (n + d) = some r' := by
    intro d
    induction d with
    | zero => exact hn
    | succ d ih => exact hmono (n + d) r' ih
  refine Returns.unique ⟨n, fun fuel hfuel => ?_⟩ h
  obtain ⟨d, rfl⟩ := Nat.exists_eq_add_of_le hfuel
  exact hlater d

end Fuel

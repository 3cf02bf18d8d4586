import YwStorage.OrderedNode.Basic
import YwStorage.Lib.MergeSort

/-! The merge sort of the slot directory: its loops are those of a bottom-up merge sort. -/
namespace YwStorage.OrderedNode
open Slots MergeRuns

namespace Config
variable {c : Config} {x : ℕ}

theorem wrap_of_lt (h : x < 256 ^ c.slotSize) : c.wrap x = x := by
  have hx : (x : ℤ) < (256 ^ c.slotSize : ℕ) := by exact_mod_cast h
  rw [wrap, Int.emod_eq_of_lt (Int.natCast_nonneg x) hx, Int.toNat_natCast]

theorem wrap_natCast (c : Config) (x : ℕ) : c.wrap x = x % 256 ^ c.slotSize := by
  rw [wrap, ← Int.natCast_mod, Int.toNat_natCast]

theorem slot_le (c : Config) : 256 ^ c.slotSize ≤ 2 ^ 32 := by
  rw [show (2 : ℕ) ^ 32 = 256 ^ 4 by norm_num]
  exact Nat.pow_le_pow_right (by decide) c.slotSize_le

end Config

namespace Page
variable {c : Config} {less : ℕ → ℕ → Bool} {src dst : ℕ → ℕ} {count : ℕ} {xs ys zs : List ℕ}
  {j k i left right level h : ℕ}

theorem eq_of_move {dst' : ℕ → ℕ} (hmove : MergeSort.move count src dst j k = some dst') :
    Function.update dst j (src k) = dst' := by
  obtain ⟨-, heq⟩ := Option.ite_none_right_eq_some.mp hmove
  exact Option.some.inj heq

/-- Checking the accesses does not change what is computed. -/
theorem drain_of_checked {n : ℕ} {dst' : ℕ → ℕ}
    (hdrain : MergeSort.drain count src n dst j k = some dst') : drain src n dst j k = dst' := by
  induction n generalizing dst j k with
  | zero => exact Option.some.inj hdrain
  | succ n ih =>
    obtain ⟨dst₁, hmove, hrest⟩ := Option.bind_eq_some_iff.mp hdrain
    obtain rfl := eq_of_move hmove
    exact ih hrest

theorem mergeLoop_of_checked {fuel : ℕ} {r : (ℕ → ℕ) × ℕ} (hlt : i + level < 2 ^ 32)
    (hmerge : MergeSort.mergeLoop less count src i level fuel dst j left right = some r) :
    mergeLoop less count src i level fuel dst j left right = r := by
  induction fuel generalizing dst j left right with
  | zero => cases hmerge
  | succ fuel ih =>
    rw [MergeSort.mergeLoop, MergeSort.sum_of_lt hlt, MergeSort.sum_of_lt (by omega)] at hmerge
    rw [mergeLoop]
    obtain ⟨-, hmerge⟩ := Option.ite_none_right_eq_some.mp hmerge
    by_cases hless : less (src left) (src right) = true
    · rw [if_pos hless] at hmerge ⊢
      obtain ⟨dst₁, hmove, hmerge⟩ := Option.bind_eq_some_iff.mp hmerge
      obtain rfl := eq_of_move hmove
      by_cases hleft : left + 1 = i + level / 2
      · rw [if_pos hleft] at hmerge ⊢
        obtain ⟨dst₁, hdrain, hmerge⟩ := Option.bind_eq_some_iff.mp hmerge
        rw [drain_of_checked hdrain]
        exact Option.some.inj hmerge
      · rw [if_neg hleft] at hmerge ⊢
        by_cases hstop : j + 1 < min (i + level) count
        · rw [if_pos hstop] at hmerge ⊢
          exact ih hmerge
        · rw [if_neg hstop] at hmerge ⊢
          exact Option.some.inj hmerge
    · rw [if_neg hless] at hmerge ⊢
      obtain ⟨dst₁, hmove, hmerge⟩ := Option.bind_eq_some_iff.mp hmerge
      obtain rfl := eq_of_move hmove
      by_cases hright : right + 1 = i + level ∨ right + 1 = count
      · rw [if_pos hright] at hmerge ⊢
        obtain ⟨dst₁, hdrain, hmerge⟩ := Option.bind_eq_some_iff.mp hmerge
        rw [drain_of_checked hdrain]
        exact Option.some.inj hmerge
      · rw [if_neg hright] at hmerge ⊢
        by_cases hstop : j + 1 < min (i + level) count
        · rw [if_pos hstop] at hmerge ⊢
          exact ih hmerge
        · rw [if_neg hstop] at hmerge ⊢
          exact Option.some.inj hmerge

theorem passLoop_of_checked {fuel : ℕ} {dst' : ℕ → ℕ} (hlt : count + level ≤ 2 ^ 32)
    (hpass : MergeSort.passLoop (256 ^ c.slotSize) less count src level fuel i dst j = some dst') :
    passLoop c less count src level fuel i dst j = some dst' := by
  induction fuel generalizing i dst j with
  | zero => cases hpass
  | succ fuel ih =>
    rw [MergeSort.passLoop] at hpass
    rw [passLoop]
    by_cases hi : i < count
    · have hright : c.wrap (i + level / 2 : ℤ) = (i + level / 2) % 256 ^ c.slotSize := by
        rw [← Config.wrap_natCast]
        norm_cast
      have hnext : c.wrap (i + level : ℤ) = (i + level) % 256 ^ c.slotSize := by
        rw [← Config.wrap_natCast]
        norm_cast
      simp only [if_pos hi, hright, hnext] at hpass ⊢
      rw [MergeSort.sum_of_lt (by omega)] at hpass
      by_cases hlast : (i + level / 2) % 256 ^ c.slotSize ≥ count
      · rw [if_pos hlast] at hpass ⊢
        rw [drain_of_checked hpass]
      · rw [if_neg hlast] at hpass ⊢
        obtain ⟨⟨dst₁, j₁⟩, hmerge, hpass⟩ := Option.bind_eq_some_iff.mp hpass
        rw [mergeLoop_of_checked (by omega) hmerge]
        exact ih hpass
    · rwa [if_neg hi] at hpass ⊢

theorem sortLoop_of_checked {turns fuel : ℕ} {src' : ℕ → ℕ} (hcount : 4 * count ≤ 256 ^ c.slotSize)
    (hsort : MergeSort.sortLoop (256 ^ c.slotSize) less count turns fuel level src dst =
      some src') : sortLoop c less count turns fuel level src dst = some src' := by
  induction fuel generalizing level src dst with
  | zero => cases hsort
  | succ fuel ih =>
    rw [MergeSort.sortLoop] at hsort
    rw [sortLoop]
    by_cases hlt : level / 2 < count
    · have hle := c.slot_le
      have hlevel : c.wrap (level * 2 : ℤ) = level * 2 % 256 ^ c.slotSize := by
        rw [← Config.wrap_natCast]
        norm_cast
      rw [if_pos hlt] at hsort ⊢
      obtain ⟨dst₁, hpass, hsort⟩ := Option.bind_eq_some_iff.mp hsort
      rw [passLoop_of_checked (by omega) hpass, hlevel]
      exact ih hsort
    · rwa [if_neg hlt] at hsort ⊢

/-- More fuel does not change a result. -/
theorem passLoop_mono {fuel fuel' : ℕ} {dst' : ℕ → ℕ} (hle : fuel ≤ fuel')
    (hpass : passLoop c less count src level fuel i dst j = some dst') :
    passLoop c less count src level fuel' i dst j = some dst' := by
  induction fuel generalizing fuel' i dst j with
  | zero => simp [passLoop] at hpass
  | succ fuel ih =>
    obtain ⟨n, rfl⟩ := Nat.exists_eq_add_of_le' (Nat.le_trans (Nat.succ_le_succ fuel.zero_le) hle)
    rw [passLoop] at hpass ⊢
    by_cases hi : i < count
    · simp only [if_pos hi] at hpass ⊢
      by_cases hright : c.wrap (i + level / 2) ≥ count
      · rwa [if_pos hright] at hpass ⊢
      · rw [if_neg hright] at hpass ⊢
        exact ih (by omega) hpass
    · rwa [if_neg hi] at hpass ⊢

theorem sortLoop_mono {turns turns' fuel fuel' : ℕ} {src' : ℕ → ℕ} (hturns : turns ≤ turns')
    (hle : fuel ≤ fuel') (hsort : sortLoop c less count turns fuel level src dst = some src') :
    sortLoop c less count turns' fuel' level src dst = some src' := by
  induction fuel generalizing fuel' level src dst with
  | zero => simp [sortLoop] at hsort
  | succ fuel ih =>
    obtain ⟨n, rfl⟩ := Nat.exists_eq_add_of_le' (Nat.le_trans (Nat.succ_le_succ fuel.zero_le) hle)
    rw [sortLoop] at hsort ⊢
    by_cases hlevel : level / 2 < count
    · rw [if_pos hlevel] at hsort ⊢
      obtain ⟨dst₁, hpass, hrest⟩ := Option.bind_eq_some_iff.mp hsort
      exact Option.bind_eq_some_iff.mpr ⟨dst₁, passLoop_mono hturns hpass, ih (by omega) hrest⟩
    · rwa [if_neg hlevel] at hsort ⊢

/-- With more slots, `level` wraps to zero before the runs are long enough. -/
theorem sortLoop_diverges (hcount : 256 ^ c.slotSize < 4 * count) (turns fuel : ℕ)
    (hlevel : level = 0 ∨ ∃ k, k < 8 * c.slotSize ∧ level = 2 ^ k) (dst : ℕ → ℕ) :
    sortLoop c less count turns fuel level src dst = none := by
  have hpos : 0 < count := Nat.pos_of_ne_zero fun h0 => by simp [h0] at hcount
  have hpow : 256 ^ c.slotSize = 2 ^ (8 * c.slotSize) := by
    rw [pow_mul]
    norm_num
  induction fuel generalizing level src dst with
  | zero => rfl
  | succ fuel ih =>
    have hlt : level / 2 < count := by
      rcases hlevel with rfl | ⟨k, hk, rfl⟩
      · exact hpos
      · have : 2 ^ k ≤ 2 ^ (8 * c.slotSize - 1) := Nat.pow_le_pow_right (by decide) (by omega)
        have hdouble : 2 ^ (8 * c.slotSize) = 2 * 2 ^ (8 * c.slotSize - 1) := by
          rw [← pow_succ']
          congr 1
          omega
        rw [hpow, hdouble] at hcount
        generalize 2 ^ (8 * c.slotSize - 1) = m at *
        generalize 2 ^ k = x at *
        omega
    have hnext : c.wrap (level * 2 : ℤ) = 0 ∨
        ∃ k, k < 8 * c.slotSize ∧ c.wrap (level * 2 : ℤ) = 2 ^ k := by
      rcases hlevel with rfl | ⟨k, hk, rfl⟩
      · left
        simp [Config.wrap]
      · rcases Nat.lt_or_ge (k + 1) (8 * c.slotSize) with hk' | hk'
        · refine Or.inr ⟨k + 1, hk', ?_⟩
          rw [show ((2 ^ k : ℕ) * 2 : ℤ) = (2 ^ (k + 1) : ℕ) by push_cast; ring]
          refine Config.wrap_of_lt ?_
          rw [hpow]
          exact Nat.pow_lt_pow_right (by decide) hk'
        · left
          rw [show ((2 ^ k : ℕ) * 2 : ℤ) = (256 ^ c.slotSize : ℕ) by
            rw [hpow, show 8 * c.slotSize = k + 1 by omega]
            push_cast
            ring]
          simp [Config.wrap]
    rw [sortLoop, if_pos hlt]
    cases passLoop c less count src level turns 0 dst 0 with
    | none => rfl
    | some dst₁ => exact ih hnext src

end Page
end YwStorage.OrderedNode

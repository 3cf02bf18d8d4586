import YwStorage.SkipList.Insert

/-! How high the towers are: `get_new_level` looks at the lowest bits of a counter. -/
namespace YwStorage.Skip

variable {seq : UInt64} {i m n : ℕ}

theorem mask_toNat (hi : i < maxLevel) : (mask i).toNat = 8 ^ i - 1 := by
  have hpow : 1 <<< (i * degree) = 8 ^ i := by
    rw [Nat.one_shiftLeft, degree, Nat.mul_comm, Nat.pow_mul]
  have hle : 8 ^ i ≤ 8 ^ 8 := Nat.pow_le_pow_right (by decide) (Nat.le_of_lt hi)
  rw [mask, hpow, UInt64.toNat_ofNat_of_lt']
  exact lt_of_le_of_lt (Nat.sub_le _ _) (hle.trans_lt (by decide))

theorem mod_eq_pred_iff {d x : ℕ} (hd : 0 < d) : x % d = d - 1 ↔ d ∣ x + 1 := by
  have hdiv := Nat.div_add_mod x d
  constructor
  · intro hmod
    exact ⟨x / d + 1, by rw [Nat.mul_succ]; omega⟩
  · rintro ⟨_ | k, hk⟩
    · omega
    · rw [Nat.mul_succ] at hk
      have hx : x = (d - 1) + d * k := by omega
      rw [hx, Nat.add_mul_mod_self_left, Nat.mod_eq_of_lt (by omega)]

/-- The bits of a mask are all set just before a multiple. -/
theorem masked_iff (hi : i < maxLevel) : seq &&& mask i = mask i ↔ 8 ^ i ∣ seq.toNat + 1 := by
  have hand : seq.toNat &&& (8 ^ i - 1) = seq.toNat % 8 ^ i := by
    rw [show 8 ^ i = 2 ^ (3 * i) by rw [Nat.pow_mul], Nat.and_two_pow_sub_one_eq_mod]
  rw [← UInt64.toNat_inj, UInt64.toNat_and, mask_toNat hi, hand]
  exact mod_eq_pred_iff (Nat.pow_pos (by decide))

/-- The widest mask decides, and it includes the narrower ones. -/
theorem lt_newLevelLoop_iff (hi : 0 < i) (hm : m < maxLevel) :
    i < newLevelLoop seq m ↔ i ≤ m ∧ 8 ^ i ∣ seq.toNat + 1 := by
  induction m with
  | zero =>
    rw [newLevelLoop]
    omega
  | succ m ih =>
    rw [newLevelLoop]
    by_cases hmask : seq &&& mask (m + 1) = mask (m + 1)
    · rw [if_pos hmask]
      have hdvd := (masked_iff hm).mp hmask
      constructor
      · intro hlt
        have hle : i ≤ m + 1 := Nat.le_of_lt_succ hlt
        exact ⟨hle, (Nat.pow_dvd_pow 8 hle).trans hdvd⟩
      · exact fun h => Nat.lt_succ_of_le h.1
    · rw [if_neg hmask, ih (by omega)]
      constructor
      · exact fun h => ⟨h.1.trans (Nat.le_succ m), h.2⟩
      · rintro ⟨hle, hdvd⟩
        refine ⟨Nat.le_of_lt_succ (lt_of_le_of_ne hle fun heq => hmask ?_), hdvd⟩
        rw [heq] at hdvd
        exact (masked_iff hm).mpr hdvd

namespace SkipList

/-- What the next calls of `get_new_level` return. -/
def newLevels (s : SkipList) : ℕ → List ℕ
  | 0 => []
  | n + 1 => s.getNewLevel.1 :: s.getNewLevel.2.newLevels n

/-- The list after these calls. -/
def afterLevels (s : SkipList) : ℕ → SkipList
  | 0 => s
  | n + 1 => s.getNewLevel.2.afterLevels n

theorem newLevels_succ (s : SkipList) (n : ℕ) :
    s.newLevels (n + 1) = s.newLevels n ++ [(s.afterLevels n).getNewLevel.1] := by
  induction n generalizing s with
  | zero => rfl
  | succ n ih =>
    rw [newLevels, ih, newLevels, afterLevels]
    rfl

theorem afterLevels_level (s : SkipList) (n : ℕ) : (s.afterLevels n).level = s.level := by
  induction n generalizing s with
  | zero => rfl
  | succ n ih => exact ih _

theorem afterLevels_seq (s : SkipList) (n : ℕ) :
    (s.afterLevels n).seq = s.seq + UInt64.ofNat n := by
  induction n generalizing s with
  | zero => simp [afterLevels]
  | succ n ih =>
    rw [afterLevels, ih, UInt64.ofNat_add, UInt64.add_comm (UInt64.ofNat n), ← UInt64.add_assoc]
    rfl

end SkipList

/-- The counter may overflow, since its range is a multiple of every power. -/
theorem dvd_seq_iff (hi : i < maxLevel) :
    8 ^ i ∣ (UInt64.ofNat n).toNat + 1 ↔ 8 ^ i ∣ n + 1 := by
  have hrange : 8 ^ i ∣ 2 ^ 64 := by
    rw [show 8 ^ i = 2 ^ (3 * i) by rw [Nat.pow_mul]]
    refine Nat.pow_dvd_pow 2 ?_
    have hmax : maxLevel = 8 := rfl
    omega
  rw [UInt64.toNat_ofNat', Nat.dvd_iff_mod_eq_zero, Nat.dvd_iff_mod_eq_zero, Nat.add_mod,
    Nat.mod_mod_of_dvd _ hrange, ← Nat.add_mod]

/-- Of the first `n` towers just `(n + 1) / 8 ^ i` are higher than `i`. -/
theorem heights_counted {level : ℕ} (hpos : 0 < level) (hbound : level ≤ maxLevel) (n : ℕ) :
    (∀ i, 0 < i → i < level →
      ((init level).newLevels n).countP (fun h => i + 1 ≤ h) = (n + 1) / 8 ^ i) ∧
    ∀ h ∈ (init level).newLevels n, 1 ≤ h ∧ h ≤ level := by
  induction n with
  | zero =>
    refine ⟨fun i hi _ => ?_, by simp [SkipList.newLevels]⟩
    have hlt : 1 < 8 ^ i := Nat.one_lt_pow hi.ne' (by decide)
    rw [Nat.zero_add, Nat.div_eq_of_lt hlt]
    rfl
  | succ n ih =>
    have hheight : ((init level).afterLevels n).getNewLevel.1 =
        newLevelLoop (UInt64.ofNat (n + 1)) (level - 1) := by
      rw [SkipList.getNewLevel, SkipList.afterLevels_seq, SkipList.afterLevels_level,
        UInt64.ofNat_add]
      show newLevelLoop (0 + UInt64.ofNat n + 1) (level - 1) = _
      rw [UInt64.zero_add]
      rfl
    rw [SkipList.newLevels_succ, hheight]
    constructor
    · intro i hi hlevel
      have hlt : i < newLevelLoop (UInt64.ofNat (n + 1)) (level - 1) ↔ _ :=
        lt_newLevelLoop_iff hi (by omega)
      rw [dvd_seq_iff (by omega), and_iff_right (by omega)] at hlt
      have hdiv : (n + 1 + 1) / 8 ^ i = (n + 1) / 8 ^ i + if 8 ^ i ∣ n + 1 + 1 then 1 else 0 :=
        Nat.succ_div
      rw [List.countP_append, ih.1 i hi hlevel, hdiv]
      simp only [List.countP_singleton, decide_eq_true_eq]
      exact congrArg _ (if_congr hlt rfl rfl)
    · rw [List.forall_mem_append, List.forall_mem_singleton]
      have hbounds := SkipList.newLevelLoop_bounds (UInt64.ofNat (n + 1)) (level - 1)
      exact ⟨ih.2, hbounds.1, by omega⟩

/-- Two levels, and the first towers higher than one. -/
theorem heights_sixteen : ((init 2).newLevels 16).countP (fun h => 2 ≤ h) = 2 ∧
    ∀ h ∈ (init 2).newLevels 16, 1 ≤ h ∧ h ≤ 2 := by
  obtain ⟨hcount, hrange⟩ := heights_counted (show 0 < 2 by decide) (by decide) 16
  exact ⟨hcount 1 (by decide) (by decide), hrange⟩

end YwStorage.Skip

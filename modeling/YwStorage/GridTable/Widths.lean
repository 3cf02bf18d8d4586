import YwStorage.GridTable.Basic

/-! The widths of the columns, and the columns that fit into their buffer. -/
namespace YwStorage.GridTable

variable {len widths : ℤ → ℤ} {s : Widths} {x : ℤ}

/-- The first column that is not empty is as wide as the table. -/
def Brim (len : ℤ → ℤ) (x : ℤ) : Prop :=
  0 ≤ x ∧ (∀ x', 0 ≤ x' → x' < x → len x' = 0) ∧ len x = widthLimit

/-- The width of a column, with the gap behind it. -/
def Sound (len widths : ℤ → ℤ) (x : ℤ) : Prop :=
  0 ≤ widths x ∧ (widthLimit < widths x ↔ Brim len x)

/-- The widths when the loop is at column `x`. -/
structure Fitted (len : ℤ → ℤ) (x : ℤ) (s : Widths) : Prop where
  sound : ∀ x', 0 ≤ x' → x' < x → Sound len s.widths x'
  first : s.widthsMax = 0 ∧ (∀ x', 0 ≤ x' → x' < x → len x' = 0) ∨
    2 ≤ s.widthsMax ∧ ∃ x', 0 ≤ x' ∧ x' < x ∧ len x' ≠ 0
  maxX : 0 ≤ s.maxX ∧ (s.maxX < x ∨ x = 0 ∧ s.maxX = 0)
  covers : ∀ x', Brim len x' → x' < x → x' ≤ s.maxX

/-- The widths that are printed. -/
structure Printable (len : ℤ → ℤ) (s : Widths) : Prop where
  maxX_lt : s.maxX < gridX
  sound : ∀ x', 0 ≤ x' → x' ≤ s.maxX → Sound len s.widths x'
  covers : ∀ x', Brim len x' → x' < gridX → x' ≤ s.maxX

theorem sound_update_of_lt {x' w : ℤ} (h : Sound len widths x') (hlt : x' < x) :
    Sound len (Function.update widths x w) x' := by
  rw [Sound, Function.update_of_ne hlt.ne]
  exact h

theorem sound_update {w : ℤ} (h : ∀ x', 0 ≤ x' → x' < x → Sound len widths x') (hw : 0 ≤ w)
    (hbrim : widthLimit < w ↔ Brim len x) :
    ∀ x', 0 ≤ x' → x' ≤ x → Sound len (Function.update widths x w) x' := by
  intro x' h0 hle
  rcases hle.eq_or_lt with rfl | hlt
  · rw [Sound, Function.update_self]
    exact ⟨hw, hbrim⟩
  · exact sound_update_of_lt (h x' h0 hlt) hlt

theorem Fitted.zero (widths : ℤ → ℤ) : Fitted len 0 ⟨widths, 0, 0⟩ := by
  refine ⟨?_, .inl ⟨rfl, ?_⟩, ⟨le_rfl, .inr ⟨rfl, rfl⟩⟩, ?_⟩
  · intro x' h0 hlt
    exact absurd h0 (not_le.mpr hlt)
  · intro x' h0 hlt
    exact absurd h0 (not_le.mpr hlt)
  · intro x' hbrim hlt
    exact absurd hbrim.1 (not_le.mpr hlt)

theorem Fitted.widthsMax_nonneg (h : Fitted len x s) : 0 ≤ s.widthsMax := by
  obtain ⟨hzero, -⟩ | ⟨htwo, -⟩ := h.first <;> omega

/-- While a column may still be the first one, nothing is taken. -/
theorem Fitted.widthsMax_eq_zero (h : Fitted len x s) (hall : ∀ x', 0 ≤ x' → x' < x → len x' = 0) :
    s.widthsMax = 0 := by
  obtain ⟨hzero, -⟩ | ⟨-, x', h0, hlt, hne⟩ := h.first
  · exact hzero
  · exact absurd (hall x' h0 hlt) hne

/-- A column that does not fit is the last one. -/
theorem Fitted.last (h : Fitted len x s) (hx : 0 ≤ x) (hgrid : x < gridX)
    (hfull : s.widthsMax + len x > widthLimit) :
    Printable len
      { s with
        widths := Function.update s.widths x (widthLimit - s.widthsMax)
        maxX := if widthLimit - s.widthsMax ≥ 3 then x else s.maxX } := by
  have hnot : ∀ x', Brim len x' → x' < x := by
    intro x' hbrim
    by_contra hle
    have hzero := h.widthsMax_eq_zero fun x'' h0 hlt => hbrim.2.1 x'' h0 (by omega)
    rcases (not_lt.mp hle).eq_or_lt with rfl | hlt
    · rw [hbrim.2.2] at hfull
      omega
    · rw [hbrim.2.1 x hx hlt, widthLimit] at hfull
      omega
  have hmax := h.widthsMax_nonneg
  by_cases hthree : widthLimit - s.widthsMax ≥ 3
  · rw [if_pos hthree]
    refine ⟨hgrid, sound_update h.sound (by omega) ?_, fun x' hbrim _ => (hnot x' hbrim).le⟩
    exact iff_of_false (by omega) fun hbrim => lt_irrefl x (hnot x hbrim)
  · -- the first column is wide enough to be printed
    have hlt : s.maxX < x := by
      obtain hlt | ⟨rfl, -⟩ := h.maxX.2
      · exact hlt
      · have hzero := h.widthsMax_eq_zero fun x' h0 hlt => absurd h0 (not_le.mpr hlt)
        rw [hzero, widthLimit] at hthree
        omega
    rw [if_neg hthree]
    refine ⟨hlt.trans hgrid, fun x' h0 hle => ?_, fun x' hbrim _ =>
      h.covers x' hbrim (hnot x' hbrim)⟩
    have hlt' : x' < x := lt_of_le_of_lt hle hlt
    exact sound_update_of_lt (h.sound x' h0 hlt') hlt'

/-- A column that fits gets a gap behind it. -/
theorem Fitted.column (h : Fitted len x s) (hx : 0 ≤ x) (hpos : 0 < len x)
    (hfit : s.widthsMax + len x ≤ widthLimit) :
    Fitted len (x + 1) ⟨Function.update s.widths x (len x + 1), s.widthsMax + (len x + 1), x⟩ := by
  have hmax := h.widthsMax_nonneg
  have hbrim : widthLimit < len x + 1 ↔ Brim len x := by
    constructor
    · -- only an empty line has room for the whole width
      intro hwide
      obtain ⟨-, hall⟩ | ⟨htwo, -⟩ := h.first
      · exact ⟨hx, hall, by omega⟩
      · omega
    · intro hbrim
      rw [hbrim.2.2]
      omega
  have hsound := sound_update h.sound (by omega) hbrim
  exact ⟨fun x' h0 hlt => hsound x' h0 (Int.lt_add_one_iff.mp hlt),
    .inr ⟨show 2 ≤ s.widthsMax + (len x + 1) by omega, x, hx, Int.lt_succ x, hpos.ne'⟩,
    ⟨hx, .inl (Int.lt_succ x)⟩, fun x' _ hlt => Int.lt_add_one_iff.mp hlt⟩

theorem Fitted.empty (h : Fitted len x s) (hzero : len x = 0) :
    Fitted len (x + 1) { s with widths := Function.update s.widths x (len x) } := by
  have hnot : ¬ Brim len x := by
    intro hbrim
    rw [Brim, hzero, widthLimit] at hbrim
    omega
  have hsound := sound_update h.sound hzero.ge
    (iff_of_false (by rw [hzero]; decide) hnot)
  refine ⟨fun x' h0 hlt => hsound x' h0 (Int.lt_add_one_iff.mp hlt), ?_, ⟨h.maxX.1, .inl ?_⟩,
    fun x' hbrim hle => ?_⟩
  · refine h.first.imp (fun hfirst => ⟨hfirst.1, fun x' h0 hle => ?_⟩) fun hfirst => ?_
    · rcases (Int.lt_add_one_iff.mp hle).eq_or_lt with rfl | hlt
      · exact hzero
      · exact hfirst.2 x' h0 hlt
    · obtain ⟨htwo, x', h0, hlt, hne⟩ := hfirst
      exact ⟨htwo, x', h0, hlt.trans (Int.lt_succ x), hne⟩
  · obtain hlt | ⟨rfl, hmaxX⟩ := h.maxX.2
    · exact hlt.trans (Int.lt_succ x)
    · exact hmaxX.trans_lt (by decide)
  · rcases (Int.lt_add_one_iff.mp hle).eq_or_lt with rfl | hlt
    · exact absurd hbrim hnot
    · exact h.covers x' hbrim hlt

theorem Fitted.calcLoop (hlen : ∀ x, 0 ≤ len x) {n : ℕ} (h : Fitted len x s) (hx : 0 ≤ x)
    (hn : x + n = gridX) : Printable len (calcLoop len n x s) := by
  induction n generalizing x s with
  | zero =>
    have hgrid : x = gridX := by simpa using hn
    have hlt : s.maxX < x := by
      obtain hlt | ⟨rfl, -⟩ := h.maxX.2
      · exact hlt
      · cases hgrid
    exact ⟨hgrid ▸ hlt, fun x' h0 hle => h.sound x' h0 (hle.trans_lt hlt),
      fun x' hbrim hlt' => h.covers x' hbrim (hgrid ▸ hlt')⟩
  | succ n ih =>
    rw [GridTable.calcLoop]
    have hn' : x + 1 + n = gridX := by
      push_cast at hn
      omega
    split_ifs with hfull hne
    · exact h.last hx (by omega) hfull
    · have hpos : 0 < len x := lt_of_le_of_ne (hlen x) (Ne.symm hne)
      exact ih (h.column hx hpos (not_lt.mp hfull)) (by omega) hn'
    · exact ih (h.empty (not_not.mp hne)) (by omega) hn'

section Padding
variable {str : Text} {width : ℤ}

/-- Every turn writes one byte. -/
theorem padLoop_eq (str : Text) (width : ℤ) (n i : ℕ) {buf : Text} (hbuf : buf.length ≤ 81) :
    if buf.length + n ≤ 81 then
      ∃ out, padLoop str width n i buf = some out ∧ out.length = buf.length + n
    else padLoop str width n i buf = none := by
  induction n generalizing i buf with
  | zero =>
    rw [Nat.add_zero, if_pos hbuf]
    exact ⟨buf, rfl, rfl⟩
  | succ n ih =>
    simp only [padLoop]
    generalize (if str.length ≤ i then ' '
      else if str.length > width ∧ width - i < 3 then '.' else str.getD i nul) = c
    by_cases hlt : buf.length < 81
    · have hwrite : write buf c = some (buf ++ [c]) := by
        rw [write, if_pos (by rw [widthLimit]; omega)]
      have hlen : (buf ++ [c]).length = buf.length + 1 := by simp
      have := ih (i + 1) (show (buf ++ [c]).length ≤ 81 by omega)
      rw [hwrite, Option.bind_some]
      rw [hlen, Nat.add_assoc, Nat.add_comm 1] at this
      exact this
    · have hwrite : write buf c = none := by
        rw [write, if_neg (by rw [widthLimit]; omega)]
      rw [if_neg (by omega), hwrite]
      rfl

theorem printColumnWithPadding_ne_none_iff :
    printColumnWithPadding str width ≠ none ↔ width ≤ widthLimit := by
  have hloop := padLoop_eq str width width.toNat 0 (show ([] : Text).length ≤ 81 by decide)
  rw [printColumnWithPadding, widthLimit]
  split_ifs at hloop with hle
  · obtain ⟨out, hout, hlen⟩ := hloop
    rw [hout, Option.bind_some, write, widthLimit, hlen]
    split_ifs with hlt
    · simp at hlt ⊢
      omega
    · simp at hlt ⊢
      omega
  · rw [hloop]
    simp at hle ⊢
    omega

end Padding

end YwStorage.GridTable

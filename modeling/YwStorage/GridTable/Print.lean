import YwStorage.GridTable.Widths

/-! What a table holds after any calls, and when printing it stays inside its buffers. -/
namespace YwStorage.GridTable
open Lts

variable {g g' : Grid} {x y : ℤ} {str : Text}

abbrev Cells := ℤ → ℤ → Option Text

def Cells.store (cells : Cells) (x y : ℤ) (str : Text) : Cells :=
  Function.update cells x (Function.update (cells x) y (some str))

/-- The table holds the strings `cells`; widths that are not computed again are still right. -/
structure Kept (g : Grid) (cells : Cells) : Prop where
  exist : ∀ x y, g.isExist x y = (cells x y).isSome
  string : ∀ x y str, cells x y = some str → nul ∉ str ∧
    ∃ pre post, g.buf = pre ++ str ++ nul :: post ∧ g.mapOff x y = pre.length
  row : ∀ x y, cells x y ≠ none → 0 ≤ y ∧ y ≤ g.maxY
  top : 0 ≤ g.maxY → g.special g.maxY = specialNormal
  used : g.widthsLastUsed ≤ g.buf.length
  cached : g.widthsLastUsed = g.buf.length →
    Printable g.longest ⟨g.widths, g.widthsMax, g.maxX⟩

theorem Kept.get_eq {cells : Cells} (h : Kept g cells) (x y : ℤ) :
    g.get x y = (cells x y).getD [] := by
  rw [Grid.get, h.exist]
  cases hcell : cells x y with
  | none => rfl
  | some str =>
    obtain ⟨hstr, pre, post, hbuf, hoff⟩ := h.string x y str hcell
    have hfree : ∀ c ∈ str, decide (c ≠ nul) = true := by
      intro c hc
      simpa using fun heq : c = nul => hstr (heq ▸ hc)
    rw [hbuf, hoff, List.append_assoc, List.drop_left, List.takeWhile_append_of_pos hfree]
    simp

theorem Kept.get_outside {cells : Cells} (h : Kept g cells) (hy : ¬ (0 ≤ y ∧ y ≤ g.maxY)) :
    g.get x y = [] := by
  have hnone : cells x y = none := by
    by_contra hne
    exact hy (h.row x y hne)
  rw [h.get_eq, hnone]
  rfl

theorem mem_upTo {n : ℤ} : x ∈ upTo n ↔ 0 ≤ x ∧ x ≤ n := by
  rw [upTo, List.mem_map]
  constructor
  · rintro ⟨k, hk, rfl⟩
    rw [List.mem_range] at hk
    exact ⟨Int.natCast_nonneg k, show (k : ℤ) ≤ n by omega⟩
  · rintro ⟨h0, hle⟩
    exact ⟨x.toNat, List.mem_range.mpr (by omega), Int.toNat_of_nonneg h0⟩

/-- The greatest of some lengths, as the loop finds it. -/
theorem foldl_longest (len : ℤ → ℤ) (ys : List ℤ) (w : ℤ) :
    ∃ r, ys.foldl (fun w y => if w < len y then len y else w) w = r ∧ w ≤ r ∧
      (∀ y ∈ ys, len y ≤ r) ∧ (r = w ∨ ∃ y ∈ ys, r = len y) := by
  induction ys generalizing w with
  | nil => exact ⟨w, rfl, le_rfl, by simp, .inl rfl⟩
  | cons y ys ih =>
    rw [List.foldl_cons]
    obtain ⟨r, hr, hle, hall, hex⟩ := ih (if w < len y then len y else w)
    refine ⟨r, hr, ?_, List.forall_mem_cons.mpr ⟨?_, hall⟩, ?_⟩
    · split_ifs at hle <;> omega
    · split_ifs at hle <;> omega
    · rcases hex with heq | ⟨z, hz, heq⟩
      · split_ifs at heq
        · exact .inr ⟨y, List.mem_cons_self, heq⟩
        · exact .inl heq
      · exact .inr ⟨z, List.mem_cons_of_mem _ hz, heq⟩

theorem longest_spec (g : Grid) (x : ℤ) :
    0 ≤ g.longest x ∧ (∀ y ∈ upTo g.maxY, ((g.get x y).length : ℤ) ≤ g.longest x) ∧
      (g.longest x = 0 ∨ ∃ y ∈ upTo g.maxY, g.longest x = (g.get x y).length) := by
  obtain ⟨r, hr, hspec⟩ := foldl_longest (fun y => (g.get x y).length) (upTo g.maxY) 0
  rw [Grid.longest, hr]
  exact hspec

theorem Kept.length_le_longest {cells : Cells} (h : Kept g cells) (x y : ℤ) :
    ((g.get x y).length : ℤ) ≤ g.longest x := by
  obtain ⟨h0, hall, -⟩ := longest_spec g x
  by_cases hy : 0 ≤ y ∧ y ≤ g.maxY
  · exact hall y (mem_upTo.mpr hy)
  · rw [h.get_outside hy]
    exact h0

theorem Kept.longest_eq_zero_iff {cells : Cells} (h : Kept g cells) :
    g.longest x = 0 ↔ ∀ y, g.get x y = [] := by
  constructor
  · intro hzero y
    have hle := h.length_le_longest x y
    rw [hzero] at hle
    exact List.length_eq_zero_iff.mp (by omega)
  · intro hall
    obtain ⟨-, -, hzero | ⟨y, -, heq⟩⟩ := longest_spec g x
    · exact hzero
    · rw [heq, hall y]
      rfl

/-- The first column that is not empty, and its longest string has exactly `WIDTH_LIMIT`
characters. -/
def Overwide (g : Grid) (x : ℤ) : Prop :=
  (0 ≤ x ∧ x < gridX) ∧ (∀ x' y, 0 ≤ x' → x' < x → g.get x' y = []) ∧
    (∀ y, ((g.get x y).length : ℤ) ≤ widthLimit) ∧ ∃ y, ((g.get x y).length : ℤ) = widthLimit

theorem Kept.overwide_iff {cells : Cells} (h : Kept g cells) :
    Overwide g x ↔ Brim g.longest x ∧ x < gridX := by
  constructor
  · rintro ⟨⟨h0, hlt⟩, hfirst, hall, y, hy⟩
    refine ⟨⟨h0, fun x' h0' hlt' => ?_, ?_⟩, hlt⟩
    · exact h.longest_eq_zero_iff.mpr fun y => hfirst x' y h0' hlt'
    have hle := h.length_le_longest x y
    obtain ⟨-, -, hzero | ⟨z, -, heq⟩⟩ := longest_spec g x
    · rw [hy, hzero, widthLimit] at hle
      omega
    · exact le_antisymm (heq ▸ hall z) (hy ▸ hle)
  · rintro ⟨⟨h0, hfirst, hbrim⟩, hlt⟩
    refine ⟨⟨h0, hlt⟩, fun x' y h0' hlt' => h.longest_eq_zero_iff.mp (hfirst x' h0' hlt') y,
      fun y => hbrim ▸ h.length_le_longest x y, ?_⟩
    obtain ⟨-, -, hzero | ⟨y, -, heq⟩⟩ := longest_spec g x
    · rw [hbrim, widthLimit] at hzero
      omega
    · exact ⟨y, heq.symm.trans hbrim⟩

/-- A string is refused, or it is appended to the buffer and the cell points to it. -/
theorem set_cases (g : Grid) (x y : ℤ) (str : Text) :
    (g.set x y str).2 = g ∨
      isValidRange x y = true ∧ (g.set x y str).2 =
        { g.setMapOff x y g.buf.length with
          buf := g.buf ++ str ++ [nul]
          special := Function.update g.special y specialNormal
          maxY := if g.maxY < y then y else g.maxY } := by
  by_cases hvalid : isValidRange x y = false
  · exact .inl (by rw [Grid.set, if_pos hvalid])
  · by_cases hfull : g.buf.length + 1 + str.length > bufLen
    · exact .inl (by rw [Grid.set, if_neg hvalid, if_pos hfull])
    · refine .inr ⟨by simpa using hvalid, ?_⟩
      rw [Grid.set, if_neg hvalid, if_neg hfull]
      rfl

theorem isExist_setMapOff (hvalid : isValidRange x y = true) (off : ℕ) (x' y' : ℤ) :
    (g.setMapOff x y off).isExist x' y' = (g.isExist x' y' || decide (x' = x ∧ y' = y)) := by
  rw [Grid.isExist, Grid.isExist]
  by_cases hv : isValidRange x' y' = true
  · rw [if_pos hv, if_pos hv, Grid.setMapOff]
    by_cases hx : x' = x
    · subst hx
      by_cases hq : y' / 8 = y / 8
      · have hbit : (y % 8).toNat = (y' % 8).toNat ↔ y' = y := by omega
        have hlt : (y % 8).toNat < 8 := by omega
        simp [hq, BitVec.getLsbD_twoPow, hbit, hlt]
      · have hne : y' ≠ y := fun heq => hq (heq ▸ rfl)
        simp [hq, hne]
    · simp [hx]
  · rw [if_neg hv, if_neg hv]
    have hne : ¬ (x' = x ∧ y' = y) := by
      rintro ⟨rfl, rfl⟩
      exact hv hvalid
    simp [hne]

theorem isValidRange_iff : isValidRange x y = true ↔ (0 ≤ x ∧ x < gridX) ∧ 0 ≤ y ∧ y < gridY := by
  simp [isValidRange]

/-- A string is put into its cell. -/
theorem Kept.set {cells : Cells} (h : Kept g cells) (hstr : nul ∉ str) :
    ∃ cells', Kept (g.set x y str).2 cells' := by
  obtain heq | ⟨hvalid, heq⟩ := set_cases g x y str
  · exact ⟨cells, by rwa [heq]⟩
  · refine ⟨cells.store x y str, ?_⟩
    rw [heq]
    have hy := (isValidRange_iff.mp hvalid).2
    have hstore : ∀ x' y', cells.store x y str x' y' =
        if x' = x ∧ y' = y then some str else cells x' y' := by
      intro x' y'
      rw [Cells.store]
      by_cases hx : x' = x
      · subst hx
        by_cases hy : y' = y
        · simp [hy]
        · simp [hy]
      · simp [hx]
    refine ⟨fun x' y' => ?_, fun x' y' str' hcell => ?_, fun x' y' hcell => ?_, fun htop => ?_, ?_,
      fun hused => ?_⟩
    · have hexist : (g.setMapOff x y g.buf.length).isExist x' y' = _ :=
        isExist_setMapOff hvalid _ x' y'
      refine hexist.trans ?_
      rw [hstore, h.exist]
      by_cases hcell : x' = x ∧ y' = y
      · simp [hcell]
      · simp [hcell]
    · rw [hstore] at hcell
      split_ifs at hcell with heq
      · cases hcell
        obtain ⟨rfl, rfl⟩ := heq
        exact ⟨hstr, g.buf, [], rfl, by simp [Grid.setMapOff]⟩
      · obtain ⟨hfree, pre, post, hbuf, hoff⟩ := h.string x' y' str' hcell
        refine ⟨hfree, pre, post ++ str ++ [nul], by simp [hbuf], ?_⟩
        rw [← hoff]
        by_cases hx : x' = x
        · subst hx
          have hne : y' ≠ y := fun heq' => heq ⟨rfl, heq'⟩
          simp [Grid.setMapOff, hne]
        · simp [Grid.setMapOff, hx]
    · rw [hstore] at hcell
      show 0 ≤ y' ∧ y' ≤ if g.maxY < y then y else g.maxY
      by_cases heq : x' = x ∧ y' = y
      · obtain ⟨rfl, rfl⟩ := heq
        split_ifs <;> omega
      · rw [if_neg heq] at hcell
        have hrow := h.row x' y' hcell
        split_ifs <;> omega
    · show Function.update g.special y specialNormal (if g.maxY < y then y else g.maxY) = _
      split_ifs with hlt
      · exact Function.update_self ..
      · by_cases htop' : g.maxY = y
        · rw [htop', Function.update_self]
        · rw [Function.update_of_ne htop']
          exact h.top (by omega)
    · show g.widthsLastUsed ≤ (g.buf ++ str ++ [nul]).length
      have := h.used
      simp
      omega
    · have hlen : g.widthsLastUsed = (g.buf ++ str ++ [nul]).length := hused
      have := h.used
      simp at hlen
      omega

/-- Reading the widths anew changes none of the strings. -/
theorem Kept.calcWidths {cells : Cells} (h : Kept g cells) :
    Kept g.calcWidths cells ∧ g.calcWidths.longest = g.longest ∧ g.calcWidths.maxY = g.maxY ∧
      g.calcWidths.special = g.special ∧
      Printable g.longest ⟨g.calcWidths.widths, g.calcWidths.widthsMax, g.calcWidths.maxX⟩ := by
  by_cases hused : g.buf.length ≠ g.widthsLastUsed
  · have hprint : Printable g.longest (calcLoop g.longest gridX.toNat 0 ⟨g.widths, 0, 0⟩) :=
      (Fitted.zero g.widths).calcLoop (fun x => (longest_spec g x).1) le_rfl (by decide)
    rw [Grid.calcWidths, if_pos hused]
    exact ⟨⟨h.exist, h.string, h.row, h.top, Nat.le_refl _, fun _ => hprint⟩, rfl, rfl, rfl, hprint⟩
  · rw [Grid.calcWidths, if_neg hused]
    exact ⟨h, rfl, rfl, rfl, h.cached (not_not.mp hused).symm⟩

theorem mapM_ne_none_iff {α β : Type*} {f : α → Option β} {l : List α} :
    l.mapM f ≠ none ↔ ∀ a ∈ l, f a ≠ none := by
  induction l with
  | nil => simp
  | cons a l ih =>
    rw [List.mapM_cons, List.forall_mem_cons, ← ih]
    cases f a with
    | none => simp
    | some b =>
      cases l.mapM f with
      | none => simp
      | some bs => simp

/-- Every column of every row that is printed fits into its buffer. -/
theorem print_ne_none_iff :
    g.print ≠ none ↔ ∀ y, 0 ≤ y → y ≤ g.calcWidths.maxY → g.calcWidths.special y = specialNormal →
      ∀ x, 0 ≤ x → x ≤ g.calcWidths.maxX → g.calcWidths.widths x ≤ widthLimit := by
  have hline : ∀ y, g.calcWidths.printLine y ≠ none ↔ (g.calcWidths.special y = specialNormal →
      ∀ x, 0 ≤ x → x ≤ g.calcWidths.maxX → g.calcWidths.widths x ≤ widthLimit) := by
    intro y
    rw [Grid.printLine]
    by_cases hspecial : g.calcWidths.special y = specialNormal
    · rw [if_pos hspecial, Ne, Option.map_eq_none_iff, ← Ne, mapM_ne_none_iff, forall_prop_of_true
        hspecial]
      simp only [mem_upTo, and_imp, printColumnWithPadding_ne_none_iff]
    · rw [if_neg hspecial]
      exact iff_of_true (by simp) fun h => absurd h hspecial
  rw [Grid.print, Ne, Option.map_eq_none_iff, ← Ne, mapM_ne_none_iff]
  simp only [mem_upTo, and_imp, hline]

theorem Kept.fresh (h : Fresh g) : Kept g fun _ _ => none := by
  have hexist : ∀ x y, g.isExist x y = false := by
    intro x y
    rw [Grid.isExist]
    split_ifs
    · rw [h.mapBmp]
      simp
    · rfl
  have hzero : ∀ x, g.longest x = 0 := by
    intro x
    obtain ⟨-, -, hzero | ⟨y, -, heq⟩⟩ := longest_spec g x
    · exact hzero
    · rw [heq, Grid.get, if_neg (by simp [hexist])]
      rfl
  refine ⟨hexist, by simp, by simp, fun htop => ?_, by simp [h.widthsLastUsed], fun _ => ?_⟩
  · rw [h.maxY] at htop
    omega
  · refine ⟨?_, fun x h0 hle => ?_, fun x hbrim => ?_⟩
    · show g.maxX < gridX
      rw [h.maxX]
      decide
    · have hle : x ≤ g.maxX := hle
      rw [h.maxX] at hle
      omega
    · rw [Brim, hzero, widthLimit] at hbrim
      omega

theorem kept_run {g₀ : Grid} {calls : List Call} (hrun : Run Step g₀ calls g) (h : Fresh g₀) :
    ∃ cells, Kept g cells := by
  refine hrun.invariant (P := fun g => ∃ cells, Kept g cells) ?_ ⟨_, Kept.fresh h⟩
  rintro g call g' hstep ⟨cells, hg⟩
  cases hstep with
  | set hstr => exact hg.set hstr
  | print hprint =>
    rw [Grid.print, Option.map_eq_some_iff] at hprint
    obtain ⟨lines, -, heq⟩ := hprint
    cases heq
    exact ⟨cells, hg.calcWidths.1⟩

/-- `print` computes widths that are not negative and writes every column inside its buffer. -/
def PrintsWithin (g : Grid) : Prop :=
  (∀ x, 0 ≤ x → x ≤ g.calcWidths.maxX → 0 ≤ g.calcWidths.widths x) ∧ g.print ≠ none

/-- After any calls a table is printed inside its buffers exactly if its first column that is not
empty does not have a longest string of `WIDTH_LIMIT` characters. -/
theorem print_within_iff (g₀ g : Grid) (calls : List Call) (h : Fresh g₀)
    (hrun : Run Step g₀ calls g) : PrintsWithin g ↔ ∀ x, ¬ Overwide g x := by
  obtain ⟨cells, hg⟩ := kept_run hrun h
  obtain ⟨-, -, hmaxY, hspecial, hprint⟩ := hg.calcWidths
  rw [PrintsWithin, print_ne_none_iff, hmaxY, hspecial]
  constructor
  · rintro ⟨-, hcols⟩ x hover
    obtain ⟨hbrim, hlt⟩ := hg.overwide_iff.mp hover
    obtain ⟨-, -, -, y, hy⟩ := hover
    -- the last row was set, so that it is printed
    have htop : 0 ≤ g.maxY := by
      by_contra hneg
      rw [hg.get_outside (y := y) (by omega), widthLimit] at hy
      cases hy
    have hle := hprint.covers x hbrim hlt
    have hwide := (hprint.sound x hbrim.1 hle).2.mpr hbrim
    exact absurd (hcols g.maxY htop le_rfl (hg.top htop) x hbrim.1 hle) (not_le.mpr hwide)
  · intro hover
    refine ⟨fun x h0 hle => (hprint.sound x h0 hle).1, fun y _ _ _ x h0 hle => ?_⟩
    by_contra hwide
    have hbrim := (hprint.sound x h0 hle).2.mp (not_le.mp hwide)
    exact hover x (hg.overwide_iff.mpr ⟨hbrim, lt_of_le_of_lt hle hprint.maxX_lt⟩)

/-- A new table with cleared memory. -/
def newGrid : Grid where
  buf := []
  widthsLastUsed := 0
  widths := fun _ => 0
  widthsMax := 0
  special := fun _ => 0
  maxX := -1
  maxY := -1
  mapOff := fun _ _ => 0
  mapBmp := fun _ _ => 0

theorem fresh_newGrid : Fresh newGrid := ⟨rfl, rfl, rfl, rfl, fun _ _ => rfl⟩

def oneCell (n : ℕ) : Grid := (newGrid.set 0 0 (List.replicate n 'a')).2

theorem run_oneCell (n : ℕ) :
    Run Step newGrid [.set 0 0 (List.replicate n 'a')] (oneCell n) := by
  refine .single (.set ?_)
  intro h
  exact absurd (List.eq_of_mem_replicate h) (by decide)

theorem length_get_le (g : Grid) (x y : ℤ) : (g.get x y).length ≤ g.buf.length := by
  rw [Grid.get]
  split_ifs
  · exact ((List.takeWhile_sublist _).trans (List.drop_sublist _ _)).length_le
  · exact Nat.zero_le _

theorem oneCell_printed : Fresh newGrid ∧
    Run Step newGrid [.set 0 0 (List.replicate 3 'a')] (oneCell 3) ∧ PrintsWithin (oneCell 3) := by
  refine ⟨fresh_newGrid, run_oneCell 3,
    (print_within_iff newGrid (oneCell 3) _ fresh_newGrid (run_oneCell 3)).mpr ?_⟩
  rintro x ⟨-, -, -, y, hy⟩
  have hle := length_get_le (oneCell 3) x y
  have hbuf : (oneCell 3).buf.length = 4 := by decide
  rw [widthLimit] at hy
  omega

/-- One string of 80 characters makes a column of 81, whose terminator is written behind the
buffer. -/
theorem oneCell_overrun : Fresh newGrid ∧
    Run Step newGrid [.set 0 0 (List.replicate 80 'a')] (oneCell 80) ∧
    (oneCell 80).calcWidths.widths 0 = 81 ∧ (oneCell 80).print.isNone = true ∧
    ¬ PrintsWithin (oneCell 80) := by
  have hnone : (oneCell 80).print.isNone = true := by decide +kernel
  refine ⟨fresh_newGrid, run_oneCell 80, by decide +kernel, hnone, fun h => h.2 ?_⟩
  exact Option.isNone_iff_eq_none.mp hnone

end YwStorage.GridTable

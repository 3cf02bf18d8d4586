import YwStorage.Symbol.Basic

/-! `find` as a floor search in what the lines record. -/
namespace YwStorage.Symbol
open SortedMap

variable {table : Table} {m : ℤ → Option Text} {lines : List Text} {val : ℤ}

/-- The name that the lines record last for each address. -/
def recorded (lines : List Text) : ℤ → Option Text :=
  lines.foldl (fun m buf =>
    match readline buf with
    | some (some (addr, name)) => Function.update m addr (some name)
    | _ => m) fun _ => none

/-- The greatest recorded address not above `val`. -/
def Greatest (m : ℤ → Option Text) (val a : ℤ) : Prop :=
  a ≤ val ∧ m a ≠ none ∧ ∀ b ≤ val, m b ≠ none → b ≤ a

/-- The name of the greatest recorded address not above `val`; the empty one if there is none. -/
def IsFloor (m : ℤ → Option Text) (val : ℤ) (name : Text) : Prop :=
  (∃ a, Greatest m val a ∧ m a = some name) ∨ (∀ a ≤ val, m a = none) ∧ name = []

/-- The search has an entry to step back from and one to step back to, or the empty name is
right. -/
structure Findable (m : ℤ → Option Text) (val : ℤ) : Prop where
  above : val = 0 ∨ (∀ a > val, m a = none) → ∀ a, Greatest m val a → m a = some []
  below : val ≠ 0 → (∃ a > val, m a ≠ none) → ∃ a ≤ val, m a ≠ none

structure Holds (table : Table) (m : ℤ → Option Text) : Prop where
  sorted : Sorted table
  represents : Represents table m

theorem holds_nil : Holds [] fun _ => none := ⟨List.Pairwise.nil, represents_nil⟩

theorem Holds.put (h : Holds table m) (addr : ℤ) (name : Text) :
    Holds (put addr name table) (Function.update m addr (some name)) :=
  ⟨put_sorted h.sorted, h.represents.put h.sorted addr name⟩

/-- The table keeps what is recorded, line by line. -/
theorem Holds.readLines (h : Holds table m) {table' : Table}
    (hread : lines.foldlM (fun table buf => (readline buf).map (store table)) table =
      some table') :
    Holds table' (lines.foldl (fun m buf =>
      match readline buf with
      | some (some (addr, name)) => Function.update m addr (some name)
      | _ => m) m) := by
  induction lines generalizing table m with
  | nil =>
    cases hread
    exact h
  | cons buf lines ih =>
    rw [List.foldlM_cons] at hread
    rw [List.foldl_cons]
    cases hr : readline buf with
    | none => simp [hr] at hread
    | some r =>
      rw [hr] at hread
      cases r with
      | none => exact ih h hread
      | some e => exact ih (h.put e.1 e.2) hread

theorem readLines_holds (h : readLines lines = some table) : Holds table (recorded lines) :=
  holds_nil.readLines h

/-- Where `upper_bound` stands. -/
theorem Holds.cut (h : Holds table m) (val : ℤ) :
    ∃ bs cs, table.takeWhile (fun e => e.1 ≤ val) = bs ∧
      table.dropWhile (fun e => e.1 ≤ val) = cs ∧ table = bs ++ cs ∧
      (∀ e ∈ bs, e.1 ≤ val) ∧ ∀ e ∈ cs, val < e.1 := by
  obtain ⟨bs, cs, htable, hb, hc⟩ := h.sorted.cut val
  refine ⟨bs, cs, ?_, ?_, htable, hb, hc⟩
  · rw [htable, List.takeWhile_append_of_pos (by simpa using hb)]
    cases cs with
    | nil => simp
    | cons e cs => simp [hc e List.mem_cons_self]
  · rw [htable, List.dropWhile_append_of_pos (by simpa using hb)]
    cases cs with
    | nil => rfl
    | cons e cs => simp [hc e List.mem_cons_self]

theorem Holds.ne_none_iff (h : Holds table m) {a : ℤ} :
    m a ≠ none ↔ ∃ name, (a, name) ∈ table := by
  rw [Option.ne_none_iff_exists']
  exact exists_congr fun name => h.represents a name

theorem Holds.greatest_last (h : Holds table m) {bs cs : Table} {e : ℤ × Text}
    (htable : table = (bs ++ [e]) ++ cs) (he : e.1 ≤ val) (hc : ∀ f ∈ cs, val < f.1) :
    Greatest m val e.1 ∧ m e.1 = some e.2 := by
  have hm : m e.1 = some e.2 := h.represents.eq_some (by simp [htable])
  refine ⟨⟨he, by simp [hm], fun b hb hne => ?_⟩, hm⟩
  obtain ⟨name, hmem⟩ := h.ne_none_iff.mp hne
  have hs := h.sorted
  rw [htable] at hmem hs
  rcases List.mem_append.mp hmem with hmem | hmem
  · rcases List.mem_append.mp hmem with hmem | hmem
    · exact ((List.pairwise_append.mp (List.pairwise_append.mp hs).1).2.2 _ hmem e
        (List.mem_singleton_self e)).le
    · rw [← List.mem_singleton.mp hmem]
  · exact absurd hb (not_le.mpr (hc _ hmem))

theorem Greatest.unique {a b : ℤ} (ha : Greatest m val a) (hb : Greatest m val b) : a = b :=
  le_antisymm (hb.2.2 a ha.1 ha.2.1) (ha.2.2 b hb.1 hb.2.1)

theorem Greatest.isFloor_iff {a : ℤ} (ha : Greatest m val a) {name : Text} :
    IsFloor m val name ↔ m a = some name := by
  constructor
  · rintro (⟨b, hb, hname⟩ | ⟨hnone, -⟩)
    · rw [ha.unique hb, hname]
    · exact absurd (hnone a ha.1) ha.2.1
  · exact fun hname => .inl ⟨a, ha, hname⟩

theorem isFloor_iff_of_none (hnone : ∀ a ≤ val, m a = none) {name : Text} :
    IsFloor m val name ↔ name = [] := by
  constructor
  · rintro (⟨a, ha, -⟩ | ⟨-, hname⟩)
    · exact absurd (hnone a ha.1) ha.2.1
    · exact hname
  · exact fun hname => .inr ⟨hnone, hname⟩

theorem Holds.find_iff (h : Holds table m) :
    (∃ name, find table val = some name ∧ IsFloor m val name) ↔ Findable m val := by
  obtain ⟨bs, cs, htake, hdrop, htable, hb, hc⟩ := h.cut val
  have habove : cs = [] ↔ ∀ a > val, m a = none := by
    constructor
    · rintro rfl a ha
      by_contra hne
      obtain ⟨name, hmem⟩ := h.ne_none_iff.mp hne
      rw [htable, List.append_nil] at hmem
      exact absurd ha (not_lt.mpr (hb _ hmem))
    · intro hnone
      refine List.eq_nil_iff_forall_not_mem.mpr fun e he => ?_
      exact h.ne_none_iff.mpr ⟨e.2, by simp [htable, he]⟩ (hnone e.1 (hc e he))
  rw [find, hdrop, htake]
  -- whether an entry is not above `val`
  rcases List.eq_nil_or_concat bs with rfl | ⟨bs, e, rfl⟩
  · have hnone : ∀ a ≤ val, m a = none := by
      intro a ha
      by_contra hne
      obtain ⟨name, hmem⟩ := h.ne_none_iff.mp hne
      rw [htable] at hmem
      exact absurd ha (not_le.mpr (hc _ hmem))
    simp only [isFloor_iff_of_none hnone]
    by_cases hend : cs = [] ∨ val = 0
    · rw [if_pos hend]
      refine iff_of_true ⟨[], rfl, rfl⟩ ⟨fun _ a ha => absurd (hnone a ha.1) ha.2.1, ?_⟩
      rintro hval ⟨a, ha, hne⟩
      exact absurd (habove.mp (hend.resolve_right hval) a ha) hne
    · rw [if_neg hend]
      refine iff_of_false (by simp) fun hf => ?_
      obtain ⟨hcs, hval⟩ := not_or.mp hend
      have hex : ∃ a > val, m a ≠ none := by
        by_contra hno
        push Not at hno
        exact hcs (habove.mpr hno)
      obtain ⟨a, ha, hne⟩ := hf.below hval hex
      exact hne (hnone a ha)
  · rw [List.concat_eq_append] at htable hb ⊢
    obtain ⟨hgreatest, hm⟩ := h.greatest_last htable (hb e (by simp)) hc
    simp only [hgreatest.isFloor_iff, hm]
    by_cases hend : cs = [] ∨ val = 0
    · rw [if_pos hend]
      rw [or_comm, habove] at hend
      constructor
      · rintro ⟨name, hname, heq⟩
        cases hname
        refine ⟨fun _ a ha => ?_, fun _ _ => ⟨e.1, hgreatest.1, hgreatest.2.1⟩⟩
        rw [ha.unique hgreatest, hm, heq]
      · intro hf
        exact ⟨[], rfl, hm ▸ hf.above hend e.1 hgreatest⟩
    · rw [if_neg hend]
      refine iff_of_true ⟨e.2, by simp, rfl⟩ ⟨fun hend' => ?_, fun _ _ =>
        ⟨e.1, hgreatest.1, hgreatest.2.1⟩⟩
      rw [or_comm, ← habove] at hend'
      exact absurd hend' hend

/-- `find` answers with the floor, without moving the iterator before the first entry, exactly if
the search is findable in what the lines record. -/
theorem find_floor_iff (lines : List Text) (table : Table) (h : readLines lines = some table)
    (val : ℤ) :
    (∃ name, find table val = some name ∧ IsFloor (recorded lines) val name) ↔
      Findable (recorded lines) val :=
  (readLines_holds h).find_iff

/-- The lines of the test. -/
def testLines : List Text :=
  ["000AAAA T TEST_A", "000BBBB T TEST_B", "000CCCC T TEST_C"].map fun s => s.toList ++ [nul]

def testTable : Table :=
  [(0xAAAA, "TEST_A".toList), (0xBBBB, "TEST_B".toList), (0xCCCC, "TEST_C".toList)]

theorem readLines_testLines : readLines testLines = some testTable := by decide

/-- Between two entries. -/
theorem testLines_found : readLines testLines = some testTable ∧
    ∃ name, find testTable 0xABCD = some name ∧ IsFloor (recorded testLines) 0xABCD name := by
  refine ⟨readLines_testLines,
    (find_floor_iff testLines testTable readLines_testLines 0xABCD).mpr ⟨?_, ?_⟩⟩
  · rintro (hval | hnone)
    · cases hval
    · exact absurd (hnone 0xBBBB (by decide)) (by decide)
  · exact fun _ _ => ⟨0xAAAA, by decide, by decide⟩

/-- The last symbol is never found, and an address before the first one has no entry to step
back to. -/
theorem testLines_ends : readLines testLines = some testTable ∧
    find testTable 0xCCCC = some [] ∧ ¬ IsFloor (recorded testLines) 0xCCCC [] ∧
    find testTable 0xAAA9 = none := by
  refine ⟨readLines_testLines, by decide, ?_, by decide +kernel⟩
  rintro (⟨a, ha, hname⟩ | ⟨hnone, -⟩)
  · have hle := ha.2.2 0xCCCC le_rfl (by decide)
    rw [le_antisymm ha.1 hle] at hname
    exact absurd hname (by decide)
  · exact absurd (hnone 0xCCCC le_rfl) (by decide)

end YwStorage.Symbol

import YwStorage.RbTree.Balance
import YwStorage.Lib.SortedMap

/-! Where the search loops of the source end in an ordered tree. -/
namespace YwStorage.RbTree
open LinkedTree SortedMap

variable {s : Rb} {a b : ℕ} {v w : NodeVal} {ch : Side → BinTree NodeVal} {key : ℤ}
  {t x : BinTree NodeVal} {f : Frame NodeVal} {path fs gs : List (Frame NodeVal)}

/-- `key` belongs into the hole of the path. -/
structure Between (path : List (Frame NodeVal)) (key : ℤ) : Prop where
  lower : ∀ e ∈ entriesBefore path, e.1 < key
  upper : ∀ e ∈ entriesAfter path, key < e.1

/-- The tree below the hole starts with `key`, or there is none. -/
def Stops (key : ℤ) : BinTree NodeVal → Prop
  | .nil => True
  | .node _ v _ => v.key = key

/-- One turn of the search: the frame that the comparison picks still encloses the key. -/
theorem Between.step (hb : Between path key) (hs : Sorted (entries (fill path (.node a v ch))))
    (hne : key ≠ v.key) :
    Between (⟨a, v, sideOf v.key key, ch (sideOf v.key key).other⟩ :: path) key := by
  rw [entries_fill, entries_node, Sorted, List.pairwise_append, List.pairwise_append,
    List.pairwise_append] at hs
  obtain ⟨⟨-, ⟨-, hr, hl⟩, -⟩, -⟩ := hs
  have hr' := (List.pairwise_cons.mp hr).1
  by_cases hlt : v.key < key
  · have hd : sideOf v.key key = .right := if_pos hlt
    rw [hd]
    refine ⟨fun e he => ?_, fun e he => hb.upper e (by rwa [entriesAfter_right rfl] at he)⟩
    rw [entriesBefore_right rfl, List.mem_append, List.mem_append] at he
    rcases he with (he | he) | he
    · exact hb.lower e he
    · exact (hl e he _ List.mem_cons_self).trans hlt
    · rw [List.mem_singleton.mp he]
      exact hlt
  · have hd : sideOf v.key key = .left := if_neg hlt
    have hgt : key < v.key := lt_of_le_of_ne (not_lt.mp hlt) hne
    rw [hd]
    refine ⟨fun e he => hb.lower e (by rwa [entriesBefore_left rfl] at he), fun e he => ?_⟩
    rw [entriesAfter_left rfl, List.mem_append, List.mem_cons] at he
    rcases he with (rfl | he) | he
    · exact hgt
    · exact hgt.trans (hr' e he)
    · exact hb.upper e he

/-- The loop of `__traverse`, started anywhere on the search path of `key`. -/
theorem traverseLoop_spec (fuel : ℕ) (h : Shape s (fill path t))
    (hs : Sorted (entries (fill path t))) (hb : Between path key) (hfuel : t.addrs.card < fuel) :
    ∃ path' t', fill path' t' = fill path t ∧ Between path' key ∧ Stops key t' ∧
      traverseLoop s key fuel (Shape.slotOf path) (holeParent path) =
        some (Shape.slotOf path', holeParent path') := by
  induction t generalizing path fuel with
  | nil =>
    obtain ⟨fuel, rfl⟩ : ∃ k, fuel = k + 1 := ⟨fuel - 1, by omega⟩
    refine ⟨path, .nil, rfl, hb, trivial, ?_⟩
    simp [traverseLoop, h.load_slotOf]
  | node a v ch ih =>
    obtain ⟨fuel, rfl⟩ : ∃ k, fuel = k + 1 := ⟨fuel - 1, by omega⟩
    have hkey : s.key a = v.key := by rw [Rb.key, h.mem_node]
    by_cases hk : key = v.key
    · refine ⟨path, .node a v ch, rfl, hb, hk.symm, ?_⟩
      simp [traverseLoop, h.load_slotOf, hkey, hk]
    · have hne : a ≠ nilNode := h.node_ne_nil
      have hstep := hb.step hs hk
      generalize hd : sideOf v.key key = d at hstep
      have hfill : fill (⟨a, v, d, ch d.other⟩ :: path) (ch d) = fill path (.node a v ch) := by
        rw [fill_cons, Frame.attach, pair_eta]
      have hcard : (ch d).addrs.card < fuel := by
        rw [BinTree.addrs_node a v ch d] at hfuel
        simp only [Multiset.card_add, Multiset.card_singleton] at hfuel
        omega
      obtain ⟨path', t', hf, hb', hst, hloop⟩ :=
        ih d fuel (by rwa [hfill]) (by rwa [hfill]) hstep hcard
      refine ⟨path', t', hf.trans hfill, hb', hst, ?_⟩
      rw [← hloop, traverseLoop, h.load_slotOf, BinTree.addr_node, hkey, if_pos hk, if_neg hne, hd]
      rfl

theorem traverse_spec (h : Shape s t) (hs : Sorted (entries t)) (key : ℤ) :
    ∃ path t', fill path t' = t ∧ Between path key ∧ Stops key t' ∧
      traverse s key = some (Shape.slotOf path, holeParent path) := by
  have hb : Between [] key := ⟨by simp [entriesBefore], by simp [entriesAfter]⟩
  have hcard := h.card_le
  have h' : Shape s (fill [] t) := h
  exact traverseLoop_spec s.loopBound h' hs hb (by rw [Rb.loopBound]; omega)

/-- `rb_find` walks as `__traverse` does. -/
theorem findLoop_eq (fuel : ℕ) (cur : Slot) (parent : ℕ) :
    findLoop s key fuel (s.load cur) =
      (traverseLoop s key fuel cur parent).map fun r => s.data (s.load r.1) := by
  induction fuel generalizing cur parent with
  | zero => rfl
  | succ fuel ih =>
    rw [findLoop, traverseLoop]
    split_ifs with hk hn
    · rfl
    · exact ih (.child (s.load cur) (sideOf (s.key (s.load cur)) key)) (s.load cur)
    · rfl

/-- The keys of the entries around the hole are not the key searched for. -/
theorem Between.notMem (hb : Between path key) {d : Ptr} :
    (key, d) ∉ entriesBefore path ∧ (key, d) ∉ entriesAfter path :=
  ⟨fun h => lt_irrefl _ (hb.lower _ h), fun h => lt_irrefl _ (hb.upper _ h)⟩

/-- `rb_find` returns the data stored with the key, and `NULL` for an absent key. -/
theorem rbFind_spec (h : Shape s t) (hs : Sorted (entries t)) (key : ℤ) :
    ∃ d, rbFind s key = some d ∧ ((key, d) ∈ entries t ∨ d = 0 ∧ ∀ d', (key, d') ∉ entries t) := by
  obtain ⟨path, t', rfl, hb, hst, htr⟩ := traverse_spec h hs key
  have hfind : rbFind s key = some (s.data t'.addr) := by
    have he : rbFind s key = _ := findLoop_eq s.loopBound .root nilNode
    have htr' : traverseLoop s key s.loopBound .root nilNode =
      some (Shape.slotOf path, holeParent path) := htr
    rw [he, htr', Option.map_some, h.load_slotOf]
  refine ⟨_, hfind, ?_⟩
  cases t' with
  | nil =>
    refine Or.inr ⟨by simp [Rb.data, h.nilVal], fun d' hd => ?_⟩
    rw [entries_fill, entries_nil, List.append_nil, List.mem_append] at hd
    exact hd.elim hb.notMem.1 hb.notMem.2
  | node a v ch =>
    left
    have hv : v.key = key := hst
    rw [BinTree.addr_node, Rb.data, h.mem_node, entries_fill, entries_node, ← hv]
    simp [entry]

theorem fill_append : fill (fs ++ gs) t = fill gs (fill fs t) := by
  induction fs generalizing t with
  | nil => rfl
  | cons f fs ih => exact ih

theorem entriesBefore_append :
    entriesBefore (fs ++ gs) = entriesBefore gs ++ entriesBefore fs := by
  induction fs with
  | nil => simp [entriesBefore]
  | cons f fs ih =>
    cases hd : f.side with
    | left => rw [List.cons_append, entriesBefore_left hd, entriesBefore_left hd, ih]
    | right =>
      rw [List.cons_append, entriesBefore_right hd, entriesBefore_right hd, ih]
      simp

theorem entriesAfter_append : entriesAfter (fs ++ gs) = entriesAfter fs ++ entriesAfter gs := by
  induction fs with
  | nil => simp [entriesAfter]
  | cons f fs ih =>
    cases hd : f.side with
    | left =>
      rw [List.cons_append, entriesAfter_left hd, entriesAfter_left hd, ih]
      simp
    | right => rw [List.cons_append, entriesAfter_right hd, entriesAfter_right hd, ih]

/-- `get_maximum` ends at the last entry of the tree, a node without right child. -/
theorem getMaximum_spec (fuel : ℕ) (h : Shape s (fill path t)) (ht : t ≠ .nil)
    (hfuel : t.addrs.card ≤ fuel) :
    ∃ ps b w x, t = fill ps (.node b w (pair .left x .nil)) ∧ entriesAfter ps = [] ∧
      getMaximum s fuel t.addr = some b := by
  induction t generalizing path fuel with
  | nil => exact absurd rfl ht
  | node a v ch ih =>
    rw [BinTree.addrs_node a v ch .right] at hfuel
    simp only [Multiset.card_add, Multiset.card_singleton] at hfuel
    obtain ⟨fuel, rfl⟩ : ∃ k, fuel = k + 1 := ⟨fuel - 1, by omega⟩
    have hc : s.child a .right = (ch .right).addr := h.child_eq
    by_cases hr : ch .right = .nil
    · refine ⟨[], a, v, ch .left, ?_, by simp [entriesAfter], by simp [getMaximum, hc, hr]⟩
      rw [fill_nil, ← hr]
      exact congrArg _ (pair_eta .left ch).symm
    · have h' : Shape s (fill (⟨a, v, .right, ch .left⟩ :: path) (ch .right)) := by
        rw [fill_cons, Frame.attach]
        exact (pair_eta .right ch).symm ▸ h
      have hne : (ch .right).addr ≠ nilNode := fun hz => hr (h'.tree.addr_eq_zero.mp hz)
      obtain ⟨ps, b, w, x, he, ha, hm⟩ := ih .right fuel h' hr (by omega)
      refine ⟨ps ++ [⟨a, v, .right, ch .left⟩], b, w, x, ?_, ?_, ?_⟩
      · rw [fill_append, ← he]
        exact congrArg _ (pair_eta .right ch).symm
      · rw [entriesAfter_append, ha, entriesAfter_right rfl]
        rfl
      · simp [getMaximum, hc, hne, hm]

end YwStorage.RbTree

import YwStorage.RbTree.Update

/-! The red-black tree along whole runs of calls: what it represents and what it keeps. -/
namespace YwStorage.RbTree
open LinkedTree SortedMap Lts

variable {s s' : Rb} {n : ℕ} {t : BinTree NodeVal} {mem : Mem NodeVal} {m : ℤ → Option Ptr}
  {e : Op ℤ Ptr × Reply Ptr} {es : List (Op ℤ Ptr × Reply Ptr)}

/-- An address that the node pool may hand out. -/
def Fresh (s : Rb) (n : ℕ) : Prop := n ≠ nilNode ∧ n ∉ s.live

instance : Decidable (Fresh s n) := inferInstanceAs (Decidable (_ ∧ _))

/-- One call, with `n` the address the node pool hands out if it is asked. -/
def call (s : Rb) (n : ℕ) : Op ℤ Ptr → Option (Reply Ptr × Rb)
  | .insert k d => (rbInsert s k d (some n)).map fun r => (.flag r.1, r.2)
  | .remove k => (rbRemove s k).map fun r => (.flag r.1, r.2)
  | .find k => (rbFind s k).map fun d => (.value d, s)

def Step (s : Rb) (e : Op ℤ Ptr × Reply Ptr) (s' : Rb) : Prop :=
  ∃ n, Fresh s n ∧ call s n e.1 = some (e.2, s')

/-- A search reports `NULL` for an absent key. -/
def orNull (o : Option Ptr) (d : Ptr) : Prop := d = o.getD 0

/-- A removal moves no key to the data of another. -/
def keepsData (s : Rb) : Op ℤ Ptr → Bool
  | .remove k => movesSameData s k
  | _ => true

theorem inv_create : Inv (rbCreateTree mem) .nil := by
  refine ⟨⟨rfl, trivial, by simp [rbCreateTree], ?_, ?_, fun _ => ?_⟩, rfl, List.Pairwise.nil,
    rfl, 0, rfl⟩ <;> simp [rbCreateTree, nilCell]

/-- Any call returns, keeps the invariant and answers as the map does. -/
theorem call_spec (h : Inv s t) (hm : Represents (entries t) m) (hn : Fresh s n)
    (op : Op ℤ Ptr) :
    ∃ r s' t', call s n op = some (r, s') ∧ Replies orNull m op r ∧ Inv s' t' ∧
      (keepsData s op = true → Represents (entries t') (next m op)) := by
  cases op with
  | insert k d =>
    obtain ⟨ok, s', t', hr, hi, hres⟩ := rbInsert_spec h hn.1 hn.2 k d
    obtain ⟨hreply, hrep⟩ := hm.insert_reply hres
    exact ⟨_, s', t', by simp [call, hr], hreply, hi, fun _ => hrep⟩
  | remove k =>
    obtain ⟨ok, s', t', hr, hi, ⟨rfl, hno, heq⟩ | ⟨rfl, d, hrem⟩⟩ := rbRemove_spec h k
    · have hnone := hm.eq_none hno
      refine ⟨_, s', t', by rw [call, hr]; rfl, by simp [Replies, hnone], hi, fun _ => ?_⟩
      rw [heq, next, ← hnone, Function.update_eq_self]
      exact hm
    · have hmem : (k, d) ∈ entries t := by
        rcases hrem with hrem | ⟨_, hover, -⟩
        · exact hrem.mem
        · exact hover.mem
      refine ⟨_, s', t', by rw [call, hr]; rfl, by simp [Replies, hm.eq_some hmem], hi,
        fun hkeep => ?_⟩
      rcases hrem with hrem | ⟨moved, hover, hsame⟩
      · exact hm.remove h.sorted hrem
      · rw [hsame.mp hkeep] at hover
        exact hm.remove h.sorted hover.removed
  | find k =>
    obtain ⟨d, hr, hd⟩ := rbFind_spec h.shape h.sorted k
    refine ⟨_, s, t, by rw [call, hr]; rfl, ⟨d, rfl, ?_⟩, h, fun _ => hm⟩
    rcases hd with hd | ⟨rfl, hno⟩
    · simp [orNull, hm.eq_some hd]
    · simp [orNull, hm.eq_none hno]

theorem step_inv (h : Step s e s') (hi : ∃ t, Inv s t) : ∃ t, Inv s' t := by
  obtain ⟨n, hn, hcall⟩ := h
  obtain ⟨t, ht⟩ := hi
  obtain ⟨m, hm⟩ := ht.sorted.exists_represents
  obtain ⟨r, s₁, t', hr, -, hi', -⟩ := call_spec ht hm hn e.1
  rw [hcall, Option.some.injEq, Prod.mk.injEq] at hr
  rw [hr.2]
  exact ⟨t', hi'⟩

theorem inv_run (h : Run Step (rbCreateTree mem) es s) : ∃ t, Inv s t :=
  h.invariant (fun _ _ _ => step_inv) ⟨.nil, inv_create⟩

/-- The tree of `s` represents `m`. -/
def Holds (s : Rb) (m : ℤ → Option Ptr) : Prop := ∃ t, Inv s t ∧ Represents (entries t) m

theorem step_holds (h : restrict Step (fun s e => keepsData s e.1 = true) s e s')
    (hm : Holds s m) : Replies orNull m e.1 e.2 ∧ Holds s' (next m e.1) := by
  obtain ⟨⟨n, hn, hcall⟩, hkeep⟩ := h
  obtain ⟨t, ht, hrep⟩ := hm
  obtain ⟨r, s₁, t', hr, hans, hi, hrep'⟩ := call_spec ht hrep hn e.1
  rw [hcall, Option.some.injEq, Prod.mk.injEq] at hr
  rw [hr.1, hr.2]
  exact ⟨hans, t', hi, hrep' hkeep⟩

/-- As long as no removal moves a key onto other data, every call returns and the tree answers
as a map from keys to data pointers. -/
theorem rbTree_refines_map
    (h : Run (restrict Step fun s e => keepsData s e.1 = true) (rbCreateTree mem) es s) :
    Answers orNull (fun _ => none) es ∧
      ∀ op n, Fresh s n →
        ∃ r s', call s n op = some (r, s') ∧ Replies orNull (after (fun _ => none) es) op r := by
  have hstart : Holds (rbCreateTree mem) fun _ => none := ⟨.nil, inv_create, represents_nil⟩
  obtain ⟨hans, t, ht, hrep⟩ := answers_run h hstart fun _ _ _ _ => step_holds
  refine ⟨hans, fun op n hn => ?_⟩
  obtain ⟨r, s', -, hr, hop, -⟩ := call_spec ht hrep hn op
  exact ⟨r, s', hr, hop⟩

/-- A call with a checked address, and `check` on the state it is made in. -/
def checkedCall (check : Rb → Op ℤ Ptr → Bool) (s : Rb) (c : ℕ × Op ℤ Ptr) :
    Option ((Op ℤ Ptr × Reply Ptr) × Rb) :=
  if Fresh s c.1 ∧ check s c.2 then (call s c.1 c.2).map fun r => ((c.2, r.1), r.2) else none

theorem step_of_checkedCall (check : Rb → Op ℤ Ptr → Bool) (s : Rb) (c : ℕ × Op ℤ Ptr)
    (e : Op ℤ Ptr × Reply Ptr) (s' : Rb) (h : checkedCall check s c = some (e, s')) :
    restrict Step (fun s e => check s e.1 = true) s e s' := by
  unfold checkedCall at h
  split_ifs at h with hc
  obtain ⟨⟨r, u⟩, hr, he⟩ := Option.map_eq_some_iff.mp h
  cases he
  exact ⟨⟨c.1, hc.1, hr⟩, hc.2⟩

/-- A refused insertion, and the removal of a root with one child. -/
def keptHistory : List (Op ℤ Ptr × Reply Ptr) :=
  [(.insert 2 20, .flag true), (.insert 1 10, .flag true), (.insert 2 9, .flag false),
    (.remove 2, .flag true), (.find 1, .value 10)]

theorem keptHistory_answers :
    ∃ s, Run (restrict Step fun s e => keepsData s e.1 = true) (rbCreateTree fun _ => nilCell)
      keptHistory s ∧ Answers orNull (fun _ => none) keptHistory := by
  obtain ⟨s, h⟩ := exists_run (step_of_checkedCall keepsData) (rbCreateTree fun _ => nilCell)
    [(1, .insert 2 20), (2, .insert 1 10), (3, .insert 2 9), (3, .remove 2), (3, .find 1)]
    (show _ = some keptHistory by decide)
  exact ⟨s, h, (rbTree_refines_map h).1⟩

/-- Removing the root of a three-node tree: the smaller key answers with the removed data. -/
def swappedHistory : List (Op ℤ Ptr × Reply Ptr) :=
  [(.insert 2 20, .flag true), (.insert 1 10, .flag true), (.insert 3 30, .flag true),
    (.remove 2, .flag true), (.find 1, .value 20)]

theorem swappedHistory_not_answers :
    ∃ s, Run Step (rbCreateTree fun _ => nilCell) swappedHistory s ∧
      ¬ Answers orNull (fun _ => none) swappedHistory := by
  obtain ⟨s, h⟩ := exists_run (step_of_checkedCall fun _ _ => true) (rbCreateTree fun _ => nilCell)
    [(1, .insert 2 20), (2, .insert 1 10), (3, .insert 3 30), (4, .remove 2), (4, .find 1)]
    (show _ = some swappedHistory by decide)
  refine ⟨s, h.mono fun _ _ _ hs => hs.1, ?_⟩
  simp [swappedHistory, Answers, Replies, next, orNull, Function.update]

/-- The tree that the child links span from an address. -/
def Reads (s : Rb) : ℕ → BinTree NodeVal → Prop
  | n, .nil => n = nilNode
  | n, .node a v ch => n = a ∧ a ≠ nilNode ∧ (s.mem a).val = v ∧ ∀ d, Reads s (s.child a d) (ch d)

/-- Smaller keys left, larger keys right. -/
def Bst : BinTree NodeVal → Prop
  | .nil => True
  | .node _ v ch => (∀ w ∈ (ch .left).inorder, w.key < v.key) ∧
      (∀ w ∈ (ch .right).inorder, v.key < w.key) ∧ ∀ d, Bst (ch d)

def NoRedRed : BinTree NodeVal → Prop
  | .nil => True
  | .node _ v ch => (v.color = .red → ∀ d, BinTree.color (ch d) = .black) ∧ ∀ d, NoRedRed (ch d)

/-- The number of black nodes on each path to the nil node. -/
def blackCounts : BinTree NodeVal → List ℕ
  | .nil => [0]
  | .node _ v ch => (blackCounts (ch .left) ++ blackCounts (ch .right)).map (· + v.color.weight)

/-- The red-black rules, for the tree `t` read from the memory of `s`. -/
structure Valid (s : Rb) (t : BinTree NodeVal) : Prop where
  reads : Reads s s.root t
  nodes : t.addrs = s.live.val
  ordered : Bst t
  rootBlack : s.getColor s.root = .black
  noRedRed : NoRedRed t
  sameBlack : ∃ n, ∀ c ∈ blackCounts t, c = n
  childParent : ∀ a ∈ s.live, ∀ d, s.child a d ≠ nilNode → s.parent (s.child a d) = a
  rootParent : s.parent s.root = nilNode
  nilBlack : s.getColor nilNode = .black

theorem reads_of_linked {p : ℕ} (h : Linked s.mem p t) : Reads s t.addr t := by
  induction t generalizing p with
  | nil => rfl
  | node a v ch ih =>
    obtain ⟨ha, hm, hch⟩ := h
    refine ⟨rfl, ha, by rw [hm], fun d => ?_⟩
    rw [Rb.child, hm]
    exact ih d (hch d)

theorem bst_of_sorted (h : Sorted (entries t)) : Bst t := by
  induction t with
  | nil => trivial
  | node a v ch ih =>
    rw [entries_node, Sorted, List.pairwise_append, List.pairwise_cons] at h
    obtain ⟨hl, ⟨hv, hr⟩, hlr⟩ := h
    refine ⟨fun w hw => ?_, fun w hw => ?_, fun d => ?_⟩
    · exact hlr (entry w) (List.mem_map_of_mem hw) (entry v) List.mem_cons_self
    · exact hv (entry w) (List.mem_map_of_mem hw)
    · cases d with
      | left => exact ih .left hl
      | right => exact ih .right hr

theorem noRedRed_of_colored {k : ℕ} (h : Colored t k) : NoRedRed t := by
  induction t generalizing k with
  | nil => trivial
  | node a v ch ih =>
    obtain ⟨hred, m, -, hch⟩ := h
    exact ⟨hred, fun d => ih d (hch d)⟩

theorem blackCounts_of_colored {k : ℕ} (h : Colored t k) : ∀ c ∈ blackCounts t, c = k := by
  induction t generalizing k with
  | nil =>
    cases h
    simp [blackCounts]
  | node a v ch ih =>
    obtain ⟨-, m, rfl, hch⟩ := h
    intro c hc
    obtain ⟨c', hc', rfl⟩ := List.mem_map.mp hc
    rcases List.mem_append.mp hc' with hc' | hc'
    · rw [ih .left (hch .left) c' hc']
    · rw [ih .right (hch .right) c' hc']

theorem Inv.valid (h : Inv s t) : Valid s t := by
  have hs : Shape s (fill [] t) := h.shape
  obtain ⟨hblack, k, hk⟩ := h.colors
  refine ⟨?_, h.live, bst_of_sorted h.sorted, ?_, noRedRed_of_colored hk,
    ⟨k, blackCounts_of_colored hk⟩, ?_, ?_, ?_⟩
  · rw [h.shape.root]
    exact reads_of_linked h.shape.linked
  · rw [hs.root_nil, hs.getColor_addr, hblack]
  · intro a ha d hc
    have ht : a ∈ t.addrs := by rw [h.live]; exact ha
    exact h.shape.linked.parent_child ht d hc
  · rw [h.shape.root]
    cases t with
    | nil => exact h.shape.nilParent rfl
    | node a v ch => exact hs.parent_eq
  · rw [Rb.getColor, h.shape.nilVal]

/-- Every reachable tree obeys the red-black rules, and every call returns there. -/
theorem rbTree_valid (h : Run Step (rbCreateTree mem) es s) :
    (∃ t, Valid s t) ∧ ∀ op n, Fresh s n → (call s n op).isSome := by
  obtain ⟨t, ht⟩ := inv_run h
  obtain ⟨m, hm⟩ := ht.sorted.exists_represents
  refine ⟨⟨t, ht.valid⟩, fun op n hn => ?_⟩
  obtain ⟨r, s', -, hr, -⟩ := call_spec ht hm hn op
  rw [hr]
  rfl

theorem swappedHistory_valid : ∃ s, Run Step (rbCreateTree fun _ => nilCell) swappedHistory s ∧
    ∃ t, Valid s t := by
  obtain ⟨s, h⟩ := exists_run (step_of_checkedCall fun _ _ => true) (rbCreateTree fun _ => nilCell)
    [(1, .insert 2 20), (2, .insert 1 10), (3, .insert 3 30), (4, .remove 2), (4, .find 1)]
    (show _ = some swappedHistory by decide)
  have hrun := h.mono fun _ _ _ hs => hs.1
  exact ⟨s, hrun, (rbTree_valid hrun).1⟩

/-- A branch with `k` black nodes needs `2 ^ k - 1` nodes around it. -/
theorem two_pow_le_of_colored {k : ℕ} (h : Colored t k) : 2 ^ k ≤ t.addrs.card + 1 := by
  induction t generalizing k with
  | nil => simp [colored_nil.mp h]
  | node a v ch ih =>
    obtain ⟨-, m, rfl, hch⟩ := h
    have hl := ih .left (hch .left)
    have hr := ih .right (hch .right)
    have hw : 2 ^ (m + v.color.weight) ≤ 2 ^ (m + 1) :=
      Nat.pow_le_pow_right two_pos (by cases v.color <;> simp [Color.weight])
    rw [pow_succ] at hw
    simp only [BinTree.addrs, Multiset.card_add, Multiset.card_singleton]
    omega

/-- No branch is longer than twice its black nodes, so more turns change nothing. -/
theorem traverseLoop_of_colored {k p fuel fuel' parent : ℕ} {cur : Slot} (key : ℤ)
    (hl : Linked s.mem p t) (hc : Colored t k) (hcur : s.load cur = t.addr)
    (hf : 2 * k + 1 - (BinTree.color t).weight ≤ fuel)
    (hf' : 2 * k + 1 - (BinTree.color t).weight ≤ fuel') :
    traverseLoop s key (fuel + 1) cur parent = traverseLoop s key (fuel' + 1) cur parent := by
  induction t generalizing k p fuel fuel' cur parent with
  | nil => simp [traverseLoop, hcur]
  | node a v ch ih =>
    obtain ⟨-, hm, hlch⟩ := hl
    obtain ⟨hred, m, rfl, hch⟩ := hc
    rw [traverseLoop, traverseLoop, hcur, BinTree.addr_node]
    generalize sideOf (s.key a) key = d
    have hload : s.load (.child a d) = (ch d).addr := by rw [Rb.load, Rb.child, hm]
    -- Below a red node comes a black one, which is counted.
    have hturn : 2 * m + 1 - (BinTree.color (ch d)).weight + 1 ≤
        2 * (m + v.color.weight) + 1 - v.color.weight := by
      cases hv : v.color <;> simp_all [Color.weight]
      omega
    rw [BinTree.color_node] at hf hf'
    obtain ⟨fuel, rfl⟩ : ∃ j, fuel = j + 1 := ⟨fuel - 1, by omega⟩
    obtain ⟨fuel', rfl⟩ : ∃ j, fuel' = j + 1 := ⟨fuel' - 1, by omega⟩
    rw [ih d (hlch d) (hch d) hload (by omega : _ ≤ fuel) (by omega : _ ≤ fuel')]

/-- In a reachable tree of `n` nodes a search ends within `2 log₂ (n + 1) + 1` turns. -/
theorem searches_logarithmic (h : Run Step (rbCreateTree mem) es s) (key : ℤ) :
    traverse s key = traverseLoop s key (2 * Nat.log 2 (s.live.card + 1) + 1) .root nilNode ∧
      rbFind s key = findLoop s key (2 * Nat.log 2 (s.live.card + 1) + 1) s.root ∧
      (traverse s key).isSome ∧ (rbFind s key).isSome := by
  obtain ⟨t, ht⟩ := inv_run h
  obtain ⟨hblack, k, hk⟩ := ht.colors
  have hpow := ht.live ▸ two_pow_le_of_colored hk
  have hmul := Nat.mul_le_pow (by decide : 2 ≠ 1) k
  have hlog := Nat.mul_le_mul_left 2 (Nat.le_log_of_pow_le one_lt_two hpow)
  have hturns : 2 * k + 1 - (BinTree.color t).weight = 2 * k := by rw [hblack]; rfl
  have htr : traverse s key = _ := traverseLoop_of_colored key ht.shape.linked hk ht.shape.root
    (hturns.trans_le (hmul.trans hpow.step)) (hturns.trans_le hlog)
  have hfind (fuel : ℕ) : findLoop s key fuel s.root = _ := findLoop_eq fuel .root nilNode
  refine ⟨htr, (hfind _).trans ((congrArg _ htr).trans (hfind _).symm), ?_⟩
  obtain ⟨_, hd, -⟩ := rbFind_spec ht.shape ht.sorted key
  have hsome := (congrArg Option.isSome (hd.symm.trans (hfind _))).trans Option.isSome_map
  rw [hd]
  exact ⟨hsome.symm, rfl⟩

theorem oneNode_searches :
    ∃ s, Run Step (rbCreateTree fun _ => nilCell) [(.insert 2 20, .flag true)] s ∧
      rbFind s 2 = findLoop s 2 (2 * Nat.log 2 (s.live.card + 1) + 1) s.root := by
  have hrun : Run Step (rbCreateTree fun _ => nilCell) [(.insert 2 20, .flag true)] _ :=
    .single ⟨1, by decide, rfl⟩
  exact ⟨_, hrun, (searches_logarithmic hrun 2).2.1⟩

end YwStorage.RbTree

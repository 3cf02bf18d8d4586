import YwStorage.RbTree.Recovery
import YwStorage.RbTree.Search

/-! `rb_insert` and `rb_remove` keep the representation invariant and change one entry. -/
namespace YwStorage.RbTree
open LinkedTree SortedMap

variable {s : Rb} {a b n : ℕ} {v w : NodeVal} {ch : Side → BinTree NodeVal} {key : ℤ} {data : Ptr}
  {t x : BinTree NodeVal} {d : Side} {path : List (Frame NodeVal)}

/-- The tree of `s` is `t`: linked through the allocated nodes, ordered and balanced. -/
structure Inv (s : Rb) (t : BinTree NodeVal) : Prop where
  shape : Shape s t
  live : t.addrs = s.live.val
  sorted : Sorted (entries t)
  colors : RootOk t

namespace Shape

/-- A node that is not in the tree yet leaves the tree alone. -/
theorem createNode (h : Shape s t) (hn0 : n ≠ nilNode) (hn : n ∉ s.live) (key : ℤ) (data : Ptr) :
    Shape (s.createNode n key data) t := by
  have hmem : ∀ c, c ≠ n → (s.createNode n key data).mem c = s.mem c := fun c hc => by
    simp [Rb.createNode, hc]
  have h0 := hmem nilNode hn0.symm
  refine ⟨h.root, h.linked.congr fun c hc => hmem c fun he => ?_, ?_, h0 ▸ h.nilVal,
    h0 ▸ h.nilChild, h0 ▸ h.nilParent⟩
  · exact hn (he ▸ Multiset.mem_of_le h.live hc)
  · refine h.live.trans ?_
    rw [Rb.createNode, Finset.insert_val_of_notMem hn]
    exact Multiset.le_cons_self _ _

theorem freeMem (h : Shape s t) (ha : a ∉ t.addrs) : Shape (s.freeMem a) t := by
  refine ⟨h.root, h.linked, ?_, h.nilVal, h.nilChild, h.nilParent⟩
  rw [Rb.freeMem, Finset.erase_val, ← Multiset.erase_of_notMem ha]
  exact Multiset.erase_le_erase a h.live

end Shape

@[simp] theorem Rb.createNode_mem : (s.createNode n key data).mem n =
    ⟨nilNode, fun _ => nilNode, ⟨.red, key, data⟩⟩ := by simp [Rb.createNode]

theorem mem_createNode : n ∈ (s.createNode n key data).live := Finset.mem_insert_self n s.live

/-- The fresh node hangs in the hole that the search ended in. -/
theorem storeNew (h : Shape s (fill path .nil)) (hn0 : n ≠ nilNode) (hn : n ∉ s.live) (key : ℤ)
    (data : Ptr) :
    Shape (((s.createNode n key data).setParent n (holeParent path)).store n (Shape.slotOf path))
      (fill path (.node n ⟨.red, key, data⟩ fun _ => .nil)) := by
  have hnp : n ∉ pathAddrs path := fun hm =>
    hn (Multiset.mem_of_le h.live (by simpa [addrs_fill] using hm))
  have h₁ := (h.createNode hn0 hn key data).store hn0 hnp (by simp) mem_createNode
  rwa [Rb.createNode_mem] at h₁

/-- The nodes of the tree once the fresh one hangs in it. -/
theorem addrs_storeNew (h : (fill path .nil).addrs = s.live.val) (hn : n ∉ s.live) (v : NodeVal) :
    (fill path (.node n v fun _ => .nil)).addrs = (insert n s.live).val := by
  rw [Finset.insert_val_of_notMem hn, ← h, addrs_fill, addrs_fill]
  simp [BinTree.addrs]

theorem colored_new : Colored (.node n ⟨.red, key, data⟩ fun _ => .nil) 0 :=
  ⟨fun _ _ => rfl, 0, rfl, fun _ => rfl⟩

theorem entries_new : entries (.node n ⟨.red, key, data⟩ fun _ => .nil) = [(key, data)] := rfl

/-- The tree before and after the fresh node was hung in. -/
theorem inserted_fill (hb : Between path key) (n : ℕ) (data : Ptr) :
    Inserted (entries (fill path .nil))
      (entries (fill path (.node n ⟨.red, key, data⟩ fun _ => .nil))) key data := by
  refine ⟨entriesBefore path, entriesAfter path, ?_, ?_, hb.lower, hb.upper⟩
  · rw [entries_fill, entries_nil, List.append_nil]
  · rw [entries_fill, entries_new, List.append_assoc]
    rfl

/-- Inserting an absent key, the empty tree apart. -/
theorem rbInsert_absent (h : Inv s (fill path .nil)) (hne : fill path .nil ≠ .nil)
    (hb : Between path key) (hn0 : n ≠ nilNode) (hn : n ∉ s.live)
    (htr : traverse (s.createNode n key data) key = some (Shape.slotOf path, holeParent path)) :
    ∃ s' t', rbInsert s key data (some n) = some (true, s') ∧ Inv s' t' ∧
      Inserted (entries (fill path .nil)) (entries t') key data := by
  have h₁ := h.shape.createNode hn0 hn key data
  have hroot : (s.createNode n key data).root ≠ nilNode := by
    rw [h₁.root]
    exact fun hz => hne (h₁.linked.addr_eq_zero.mp hz)
  have h₃ := storeNew h.shape hn0 hn key data
  obtain ⟨m, hnil, -, hhole⟩ := rootOk_fill.mp h.colors
  cases hnil
  have hlen := h₃.length_le
  have hlive : (((s.createNode n key data).setParent n (holeParent path)).store n
      (Shape.slotOf path)).live = insert n s.live := by cases path <;> rfl
  have hfuel : path.length < (((s.createNode n key data).setParent n (holeParent path)).store n
      (Shape.slotOf path)).loopBound := by
    rw [Rb.loopBound]
    omega
  obtain ⟨s', t', hrec, hok, hk⟩ := recover_spec _ hfuel h₃ rfl colored_new hhole
  have hins := inserted_fill hb n data
  rw [← hk.entries] at hins
  refine ⟨s', t', ?_, ⟨hk.shape, ?_, hins.sorted h.sorted, hok⟩, hins⟩
  · simp [rbInsert, hroot, htr, h₁.load_slotOf, hrec]
  · rw [hk.addrs, hk.live, addrs_storeNew h.live hn, hlive]

/-- Inserting into an empty tree. -/
theorem rbInsert_empty (h : Inv s .nil) (hn0 : n ≠ nilNode) (hn : n ∉ s.live) (key : ℤ)
    (data : Ptr) :
    ∃ s' t', rbInsert s key data (some n) = some (true, s') ∧ Inv s' t' ∧
      Inserted [] (entries t') key data := by
  have h₁ := h.shape.createNode hn0 hn key data
  have hroot : (s.createNode n key data).root = nilNode := h₁.root
  have hstore : ((s.createNode n key data).setParent n nilNode).store n .root =
      { s.createNode n key data with root := n } := by
    simp [Rb.store, Rb.setParent, Rb.modify, Rb.createNode]
  have h₂ : Shape { s.createNode n key data with root := n }
      (fill [] (.node n ⟨.red, key, data⟩ fun _ => .nil)) := by
    rw [← hstore]
    exact storeNew (show Shape s (fill [] .nil) from h.shape) hn0 hn key data
  have h₃ := h₂.setColor .black
  refine ⟨_, _, ?_, ⟨h₃, ?_, ?_, ?_⟩, ?_⟩
  · simp [rbInsert, hroot]
  · exact addrs_storeNew (show (fill [] .nil).addrs = _ from h.live) hn _
  · exact List.pairwise_singleton _ _
  · exact ⟨rfl, 1, colored_new.blacken rfl⟩
  · exact ⟨[], [], rfl, rfl, by simp, by simp⟩

/-- A key that is present frees the fresh node again. -/
theorem rbInsert_present (h : Inv s (fill path (.node a v ch))) (hn0 : n ≠ nilNode)
    (hn : n ∉ s.live)
    (htr : traverse (s.createNode n key data) key = some (Shape.slotOf path, holeParent path)) :
    ∃ s', rbInsert s key data (some n) = some (false, s') ∧
      Inv s' (fill path (.node a v ch)) := by
  have h₁ := h.shape.createNode hn0 hn key data
  have hroot : (s.createNode n key data).root ≠ nilNode := by
    rw [h₁.root]
    exact fun hz => fill_node_ne_nil (h₁.linked.addr_eq_zero.mp hz)
  have hmem : n ∉ (fill path (.node a v ch)).addrs := by
    rw [h.live]
    exact hn
  refine ⟨(s.createNode n key data).freeMem n, ?_, ⟨h₁.freeMem hmem, ?_, h.sorted, h.colors⟩⟩
  · simp [rbInsert, hroot, htr, h₁.load_slotOf, h.shape.node_ne_nil]
  · rw [h.live, Rb.freeMem, Rb.createNode, Finset.erase_insert hn]

/-- `rb_insert` puts an absent key in and refuses a present one. -/
theorem rbInsert_spec (h : Inv s t) (hn0 : n ≠ nilNode) (hn : n ∉ s.live) (key : ℤ) (data : Ptr) :
    ∃ ok s' t', rbInsert s key data (some n) = some (ok, s') ∧ Inv s' t' ∧
      InsertResult (entries t) (entries t') key data ok := by
  by_cases ht : t = .nil
  · subst ht
    obtain ⟨s', t', hr, hi, hins⟩ := rbInsert_empty h hn0 hn key data
    exact ⟨true, s', t', hr, hi, Or.inr ⟨rfl, hins⟩⟩
  obtain ⟨path, t', rfl, hb, hst, htr⟩ :=
    traverse_spec (h.shape.createNode hn0 hn key data) h.sorted key
  cases t' with
  | nil =>
    obtain ⟨s', t', hr, hi, hins⟩ := rbInsert_absent h ht hb hn0 hn htr
    exact ⟨true, s', t', hr, hi, Or.inr ⟨rfl, hins⟩⟩
  | node a v ch =>
    obtain ⟨s', hr, hi⟩ := rbInsert_present h hn0 hn htr
    have hv : v.key = key := hst
    refine ⟨false, s', _, hr, hi, Or.inl ⟨rfl, rfl, v.data, ?_⟩⟩
    rw [entries_fill, entries_node, ← hv]
    simp [entry]

/-- The entry before that of `key` has taken its place, with the data of `key` instead of its own
data `moved`. -/
def Overwritten (es es' : List (ℤ × Ptr)) (key : ℤ) (data moved : Ptr) : Prop :=
  ∃ bs k cs, es = bs ++ (k, moved) :: (key, data) :: cs ∧ es' = bs ++ (k, data) :: cs

theorem Overwritten.sorted {es es' : List (ℤ × Ptr)} {moved : Ptr}
    (h : Overwritten es es' key data moved) (hs : Sorted es) : Sorted es' := by
  obtain ⟨bs, k, cs, rfl, rfl⟩ := h
  have hsub : Sorted (bs ++ (k, moved) :: cs) :=
    hs.sublist (List.Sublist.append_left ((List.sublist_cons_self _ _).cons_cons _) bs)
  rw [Sorted, List.pairwise_append, List.pairwise_cons] at hsub ⊢
  obtain ⟨hb, hc, hbc⟩ := hsub
  refine ⟨hb, hc, fun e he e' he' => ?_⟩
  rcases List.mem_cons.mp he' with rfl | he'
  · exact hbc e he (k, moved) List.mem_cons_self
  · exact hbc e he e' (List.mem_cons_of_mem _ he')

/-- With equal data nothing but the entry of `key` is gone. -/
theorem Overwritten.removed {es es' : List (ℤ × Ptr)} (h : Overwritten es es' key data data) :
    Removed es es' key data := by
  obtain ⟨bs, k, cs, rfl, rfl⟩ := h
  exact ⟨bs ++ [(k, data)], cs, by simp, by simp⟩

theorem Overwritten.mem {es es' : List (ℤ × Ptr)} {moved : Ptr}
    (h : Overwritten es es' key data moved) : (key, data) ∈ es := by
  obtain ⟨bs, k, cs, rfl, -⟩ := h
  simp

/-- The fix-up and the splice that end `rb_remove`. -/
def spliceOut (s : Rb) (target child : ℕ) : Option (Bool × Rb) := do
  let s₂ ← if s.getColor target = .black then
      recoveryBlackCountBalance s.loopBound s target
    else pure s
  return (true, (s₂.replaceChild target child).freeMem target)

theorem spliceOut_eq (s₂ : Rb) (h : (if s.getColor a = .black then
      recoveryBlackCountBalance s.loopBound s a else some s) = some s₂) :
    spliceOut s a b = some (true, (s₂.replaceChild a b).freeMem a) := by
  unfold spliceOut
  split_ifs at h ⊢
  · rw [h]
    rfl
  · cases h
    rfl

/-- A child that takes the place of its black parent, which was brought one black node down. -/
theorem rootOk_topTree (hx : Colored x 0) (hp : HoleOk path 0)
    (hc : path = [] ∨ parentColor path = .black) : RootOk (fill path (Shape.topTree path x)) := by
  cases path with
  | nil =>
    cases x with
    | nil => exact ⟨rfl, 0, rfl⟩
    | node a v ch =>
      obtain ⟨hred, m, -, hch⟩ := hx
      exact ⟨rfl, m + 1, by simp [Shape.topVal], m, rfl, hch⟩
  | cons f fs =>
    rw [Shape.topTree_cons]
    exact rootOk_fill.mpr ⟨0, hx, fun _ => hc.resolve_left (by simp), hp⟩

/-- Before the splice the hole is brought to the black height of the child. -/
theorem fixTarget_spec (h : Shape s (fill path (.node a v (pair d x .nil))))
    (hok : RootOk (fill path (.node a v (pair d x .nil)))) :
    ∃ s₂ path', (if s.getColor a = .black then recoveryBlackCountBalance s.loopBound s a
        else some s) = some s₂ ∧ HoleOk path' 0 ∧ (path' = [] ∨ parentColor path' = .black) ∧
      Colored x 0 ∧ KeepsHole s path (.node a v (pair d x .nil)) s₂ path' := by
  obtain ⟨m, hc, hpc, hhole⟩ := rootOk_fill.mp hok
  have hcol : s.getColor a = v.color := by rw [Rb.getColor, h.mem_node]
  rw [hcol]
  obtain ⟨hred, k, rfl, hx, hnil⟩ := (colored_node d).mp hc
  cases hnil
  by_cases hv : v.color = .black
  · rw [if_pos hv]
    rw [hv] at hhole
    have hlen := h.length_le
    have hfuel : path.length + 2 ≤ s.loopBound := by rw [Rb.loopBound]; omega
    obtain ⟨s₂, path', hs₂, hhole', hpc', hk⟩ := recovery_spec s.loopBound hfuel h hv hhole
    exact ⟨s₂, path', hs₂, hhole', hpc', hx, hk⟩
  · have hvr : v.color = .red := by cases hvc : v.color <;> simp_all
    rw [if_neg hv]
    rw [hvr] at hhole
    exact ⟨s, path, rfl, hhole, Or.inr (hpc hvr), hx, ⟨h, rfl, rfl, rfl, rfl⟩⟩

/-- Splicing out a node with at most one child. -/
theorem spliceOut_spec (h : Shape s (fill path (.node a v (pair d x .nil))))
    (hlive : (fill path (.node a v (pair d x .nil))).addrs = s.live.val)
    (hok : RootOk (fill path (.node a v (pair d x .nil)))) :
    ∃ s' t', spliceOut s a x.addr = some (true, s') ∧ Shape s' t' ∧ t'.addrs = s'.live.val ∧
      RootOk t' ∧ entries t' = entriesBefore path ++ entries x ++ entriesAfter path := by
  obtain ⟨s₂, path', hs₂, hhole, hpc, hx, hk⟩ := fixTarget_spec h hok
  have haddrs : s.live.val = a ::ₘ (fill path' (Shape.topTree path' x)).addrs := by
    rw [← hlive, addrs_fill, addrs_fill, BinTree.addrs_pair, Shape.addrs_topTree, hk.addrs,
      BinTree.addrs_nil, add_zero, add_assoc, Multiset.singleton_add]
  have hna : a ∉ (fill path' (Shape.topTree path' x)).addrs := by
    have hnd := s.live.nodup
    rw [haddrs] at hnd
    exact (Multiset.nodup_cons.mp hnd).1
  refine ⟨(s₂.replaceChild a x.addr).freeMem a, _, spliceOut_eq s₂ hs₂,
    hk.shape.replaceChild.freeMem hna, ?_, rootOk_topTree hx hhole hpc, ?_⟩
  · have hl : (s₂.replaceChild a x.addr).live = s.live := Rb.replaceChild_live.trans hk.live
    rw [Rb.freeMem, hl, Finset.erase_val, haddrs, Multiset.erase_cons_head]
  · rw [entries_fill, entries_topTree, hk.before, hk.after]

/-- Whether the key `rb_remove` moves up comes from a node with the data it is moved to. -/
def movesSameData (s : Rb) (key : ℤ) : Bool :=
  match traverse s key with
  | none => true
  | some (slot, _) =>
    let target := s.load slot
    if s.child target .left ≠ nilNode ∧ s.child target .right ≠ nilNode then
      match getMaximum s s.loopBound (s.child target .left) with
      | none => true
      | some b => s.data b = s.data target
    else true

/-- `rb_remove` once the search has found the node of the key. -/
theorem rbRemove_found (h : Shape s (fill path (.node a v ch))) (hv : v.key = key)
    (htr : traverse s key = some (Shape.slotOf path, holeParent path)) :
    rbRemove s key =
      if s.child a .left ≠ nilNode ∧ s.child a .right ≠ nilNode then
        (getMaximum s s.loopBound (s.child a .left)).bind fun b =>
          spliceOut (s.setKey a (s.key b)) b ((s.setKey a (s.key b)).child b .left)
      else spliceOut s a (if s.child a .left ≠ nilNode then s.child a .left
        else s.child a .right) := by
  have hroot : s.root ≠ nilNode := by
    rw [h.root]
    exact fun hz => fill_node_ne_nil (h.linked.addr_eq_zero.mp hz)
  have hkey : s.key a = key := by rw [Rb.key, h.mem_node, ← hv]
  have hstop : ¬ (s.key a ≠ key ∨ a = nilNode) := by simp [hkey, h.node_ne_nil]
  simp only [rbRemove, if_neg hroot, htr, h.load_slotOf, BinTree.addr_node, if_neg hstop, spliceOut,
    Option.bind_eq_bind, Option.bind_some, Option.pure_def]

/-- Removing a node with at most one child takes its entry out. -/
theorem rbRemove_splice (h : Inv s (fill path (.node a v ch)))
    (hch : ch = pair d x .nil) (hv : v.key = key)
    (heq : rbRemove s key = spliceOut s a x.addr) :
    ∃ s' t', rbRemove s key = some (true, s') ∧ Inv s' t' ∧
      Removed (entries (fill path (.node a v ch))) (entries t') key v.data := by
  subst hch
  obtain ⟨s', t', hr, hs', hl, hok, hent⟩ := spliceOut_spec h.shape h.live h.colors
  have hrem :
      Removed (entries (fill path (.node a v (pair d x .nil)))) (entries t') key v.data := by
    rw [hent, entries_fill, entries_pair, ← hv]
    cases d with
    | left => exact ⟨entriesBefore path ++ entries x, entriesAfter path, by simp [entry], rfl⟩
    | right =>
      exact ⟨entriesBefore path, entries x ++ entriesAfter path, by simp [entry], by simp⟩
  exact ⟨s', t', heq.trans hr, ⟨hs', hl, hrem.sorted h.sorted, hok⟩, hrem⟩

/-- The predecessor `b` of the node `a`, which takes over its key before it is spliced out. -/
structure Predecessor (s : Rb) (path : List (Frame NodeVal)) (a : ℕ) (v : NodeVal)
    (ch : Side → BinTree NodeVal) (ps : List (Frame NodeVal)) (b : ℕ) (w : NodeVal)
    (x : BinTree NodeVal) : Prop where
  left : ch .left = fill ps (.node b w (pair .left x .nil))
  after : entriesAfter ps = []
  maximum : getMaximum s s.loopBound (s.child a .left) = some b
  key : s.key b = w.key
  data : s.data b = w.data
  child : (s.setKey a w.key).child b .left = x.addr
  shape : Shape (s.setKey a w.key) (fill (ps ++ ⟨a, { v with key := w.key }, .left, ch .right⟩ ::
    path) (.node b w (pair .left x .nil)))
  live : (fill (ps ++ ⟨a, { v with key := w.key }, .left, ch .right⟩ :: path)
    (.node b w (pair .left x .nil))).addrs = (s.setKey a w.key).live.val
  colors : RootOk (fill (ps ++ ⟨a, { v with key := w.key }, .left, ch .right⟩ :: path)
    (.node b w (pair .left x .nil)))

theorem Inv.exists_predecessor (h : Inv s (fill path (.node a v ch))) (hl : ch .left ≠ .nil) :
    ∃ ps b w x, Predecessor s path a v ch ps b w x := by
  have hleft : Shape s (fill (⟨a, v, .left, ch .right⟩ :: path) (ch .left)) := by
    rw [fill_cons, Frame.attach]
    exact (pair_eta .left ch).symm ▸ h.shape
  have hcl : s.child a .left = (ch .left).addr := h.shape.child_eq
  have hfuel : (ch .left).addrs.card ≤ s.loopBound := by
    have hc := hleft.card_le
    rw [addrs_fill, Multiset.card_add] at hc
    rw [Rb.loopBound]
    omega
  obtain ⟨ps, b, w, x, hps, hafter, hmax⟩ := getMaximum_spec s.loopBound hleft hl hfuel
  -- the copied key turns `v` into `v'`, and the predecessor is the node to splice out
  have hfill : ∀ v', fill (ps ++ ⟨a, v', .left, ch .right⟩ :: path)
      (.node b w (pair .left x .nil)) = fill path (.node a v' ch) := by
    intro v'
    rw [fill_append, ← hps, fill_cons, Frame.attach]
    exact congrArg _ (congrArg _ (pair_eta .left ch))
  have h₁ : Shape (s.setKey a w.key) (fill (ps ++ ⟨a, { v with key := w.key }, .left, ch .right⟩ ::
      path) (.node b w (pair .left x .nil))) := by
    rw [hfill]
    exact h.shape.setKey w.key
  have hb : Shape s (fill (ps ++ ⟨a, v, .left, ch .right⟩ :: path)
      (.node b w (pair .left x .nil))) := by
    rw [hfill]
    exact h.shape
  refine ⟨ps, b, w, x, hps, hafter, by rw [hcl, hmax], by rw [Rb.key, hb.mem_node],
    by rw [Rb.data, hb.mem_node], ?_, h₁, ?_, ?_⟩
  · rw [h₁.child_eq]
    simp
  · have hold := h.live
    rw [addrs_fill] at hold
    rw [hfill, addrs_fill]
    exact hold
  · obtain ⟨m, hc, hpc, hhole⟩ := rootOk_fill.mp h.colors
    rw [hfill]
    exact rootOk_fill.mpr ⟨m, hc, hpc, hhole⟩

/-- A node with two children has both links set. -/
theorem Inv.two_children (h : Inv s (fill path (.node a v ch))) (hl : ch .left ≠ .nil)
    (hr : ch .right ≠ .nil) : s.child a .left ≠ nilNode ∧ s.child a .right ≠ nilNode := by
  have hleft : Shape s (fill (⟨a, v, .left, ch .right⟩ :: path) (ch .left)) := by
    rw [fill_cons, Frame.attach]
    exact (pair_eta .left ch).symm ▸ h.shape
  have hright : Shape s (fill (⟨a, v, .right, ch .left⟩ :: path) (ch .right)) := by
    rw [fill_cons, Frame.attach]
    exact (pair_eta .right ch).symm ▸ h.shape
  have hcl : s.child a .left = (ch .left).addr := h.shape.child_eq
  have hcr : s.child a .right = (ch .right).addr := h.shape.child_eq
  rw [hcl, hcr]
  exact ⟨fun hz => hl (hleft.tree.addr_eq_zero.mp hz),
    fun hz => hr (hright.tree.addr_eq_zero.mp hz)⟩

/-- Removing a node with two children splices out its predecessor after copying the key. -/
theorem rbRemove_two (h : Inv s (fill path (.node a v ch))) (hv : v.key = key)
    (hl : ch .left ≠ .nil) (hr : ch .right ≠ .nil)
    (htr : traverse s key = some (Shape.slotOf path, holeParent path)) :
    ∃ s' t' moved, rbRemove s key = some (true, s') ∧ Inv s' t' ∧
      Overwritten (entries (fill path (.node a v ch))) (entries t') key v.data moved ∧
      (movesSameData s key = true ↔ moved = v.data) := by
  have htwo := h.two_children hl hr
  obtain ⟨ps, b, w, x, hpred⟩ := h.exists_predecessor hl
  obtain ⟨s', t', hs, hs', hl', hok', hent⟩ := spliceOut_spec hpred.shape hpred.live hpred.colors
  have hover : Overwritten (entries (fill path (.node a v ch))) (entries t') key v.data w.data := by
    refine ⟨entriesBefore path ++ entriesBefore ps ++ entries x, w.key,
      entries (ch .right) ++ entriesAfter path, ?_, ?_⟩
    · rw [entries_fill, entries_node, hpred.left, entries_fill, entries_pair, hpred.after, ← hv]
      simp [entry]
    · rw [hent, entriesBefore_append, entriesBefore_left rfl, entriesAfter_append, hpred.after,
        entriesAfter_left rfl]
      simp [entry]
  have hadata : s.data a = v.data := by rw [Rb.data, h.shape.mem_node]
  refine ⟨s', t', w.data, ?_, ⟨hs', hl', hover.sorted h.sorted, hok'⟩, hover, ?_⟩
  · rw [rbRemove_found h.shape hv htr, if_pos htwo, hpred.maximum, Option.bind_some, hpred.key,
      hpred.child, hs]
  · simp only [movesSameData, htr, h.shape.load_slotOf, BinTree.addr_node, if_pos htwo,
      hpred.maximum, hpred.data, hadata, decide_eq_true_eq]

/-- `rb_remove` refuses an absent key. A present one goes, but the entry before it may be left with
the data of the removed one. -/
theorem rbRemove_spec (h : Inv s t) (key : ℤ) :
    ∃ ok s' t', rbRemove s key = some (ok, s') ∧ Inv s' t' ∧
      (ok = false ∧ (∀ d, (key, d) ∉ entries t) ∧ entries t' = entries t ∨
        ok = true ∧ ∃ d, Removed (entries t) (entries t') key d ∨
          ∃ moved, Overwritten (entries t) (entries t') key d moved ∧
            (movesSameData s key = true ↔ moved = d)) := by
  by_cases ht : t = .nil
  · subst ht
    have hroot : s.root = nilNode := h.shape.root
    exact ⟨false, s, .nil, by simp [rbRemove, hroot], h, Or.inl ⟨rfl, by simp, rfl⟩⟩
  obtain ⟨path, t', rfl, hb, hst, htr⟩ := traverse_spec h.shape h.sorted key
  cases t' with
  | nil =>
    refine ⟨false, s, _, ?_, h, Or.inl ⟨rfl, fun d hd => ?_, rfl⟩⟩
    · have hroot : s.root ≠ nilNode := by
        rw [h.shape.root]
        exact fun hz => ht (h.shape.linked.addr_eq_zero.mp hz)
      simp [rbRemove, hroot, htr, h.shape.load_slotOf]
    · rw [entries_fill, entries_nil, List.append_nil, List.mem_append] at hd
      exact hd.elim hb.notMem.1 hb.notMem.2
  | node a v ch =>
    have hcl : s.child a .left = (ch .left).addr := h.shape.child_eq
    have hcr : s.child a .right = (ch .right).addr := h.shape.child_eq
    have hfound := rbRemove_found h.shape hst htr
    by_cases hr : ch .right = .nil
    · rw [hcr, hr, BinTree.addr_nil] at hfound
      have hch : ch = pair .left (ch .left) .nil := by
        rw [← hr]
        exact (pair_eta .left ch).symm
      have heq : rbRemove s key = spliceOut s a (ch .left).addr := by
        rw [hfound, hcl, if_neg (by simp)]
        split_ifs with hz
        · rfl
        · rw [not_not.mp hz]
      obtain ⟨s', t', hr, hi, hrem⟩ := rbRemove_splice h hch hst heq
      exact ⟨true, s', t', hr, hi, Or.inr ⟨rfl, _, Or.inl hrem⟩⟩
    by_cases hl : ch .left = .nil
    · rw [hcl, hl, BinTree.addr_nil] at hfound
      have hch : ch = pair .right (ch .right) .nil := by
        rw [← hl]
        exact (pair_eta .right ch).symm
      have heq : rbRemove s key = spliceOut s a (ch .right).addr := by
        rw [hfound, hcr, if_neg (by simp), if_neg (by simp)]
      obtain ⟨s', t', hr, hi, hrem⟩ := rbRemove_splice h hch hst heq
      exact ⟨true, s', t', hr, hi, Or.inr ⟨rfl, _, Or.inl hrem⟩⟩
    · obtain ⟨s', t', moved, hrm, hi, hover, hsame⟩ := rbRemove_two h hst hl hr htr
      exact ⟨true, s', t', hrm, hi, Or.inr ⟨rfl, _, Or.inr ⟨moved, hover, hsame⟩⟩⟩

end YwStorage.RbTree

import YwStorage.FbTree.Map

/-!
Calls on any well-formed tree. The tree is read off the memory, so that it can be said of every
memory what a call makes of it.
-/
namespace YwStorage.FbTree
open MultiTree SortedMap Supply

variable {alloc : Finset ℕ → ℕ} {s s' : Fb} {R : Multiset ℕ} {T : Σ N, Node ℕ ℕ N}
  {n a b k p key : ℕ} {t : Node ℕ ℕ n} {path : Path ℕ ℕ n} {nd : FbNode} {ws : List (ℕ × ℕ)}

/-- The slots in use, up to the first nil key. -/
def FbNode.slots (nd : FbNode) : List (ℕ × ℕ) :=
  ((List.range fbSlotMax).takeWhile fun i => nd.key i ≠ fbNilKey).map
    fun i => (nd.key i, nd.child i)

/-- The tree of height `n` below a word. -/
def treeAt (s : Fb) : (n : ℕ) → ℕ → Node ℕ ℕ n
  | 0, p => data p
  | n + 1, a => node a ((s.mem a).slots.map fun e => (e.1, treeAt s n e.2))

namespace Fb
variable (s : Fb)

def tree : Σ N, Node ℕ ℕ N := ⟨s.level, treeAt s s.level s.root⟩

/-- The keys and data of the leaves, from left to right. -/
def pairs : List (ℕ × ℕ) := whole s.tree

/-- The nodes that can be reached from the root. -/
def nodes : Multiset ℕ := addrs s.tree.2

end Fb

/-- Slots and separators in order, no empty node, all leaves `level` nodes below the root, and no
node twice. -/
structure WellFormed (s : Fb) : Prop where
  shape : Shape s 0 s.tree
  order : Ordered True unmarked IsKey s.tree.2

section Tree

theorem Fits.slots_eq (h : Fits nd ws) (hk : ∀ w ∈ ws, w.1 < fbNilKey) : nd.slots = ws := by
  have hlen : ws.length ≤ 128 := h.len
  have hused : (List.range 128).takeWhile (fun i => nd.key i ≠ fbNilKey) =
      List.range ws.length := by
    obtain ⟨m, hm⟩ := Nat.exists_eq_add_of_le hlen
    rw [hm, List.range_add, List.takeWhile_append_of_pos]
    · cases m with
      | zero => simp
      | succ m =>
        rw [List.range_succ_eq_map, List.map_cons, List.takeWhile_cons_of_neg, List.append_nil]
        rw [add_zero, h.tail _ le_rfl (by omega)]
        simp
    · intro i hi
      have hlt := List.mem_range.mp hi
      rw [decide_eq_true_eq, Ne, h.key_eq_nil_iff hk (by omega)]
      omega
  rw [FbNode.slots, hused]
  refine List.ext_getElem (by simp) fun i hi hi' => ?_
  obtain ⟨hkey, hchild⟩ := h.slot i ws[i] (List.getElem?_eq_getElem hi')
  simp [hkey, hchild]

theorem treeAt_eq (h : Linked (Holds s) t) (hk : AllKeys IsKey t) : treeAt s n (ptr t) = t := by
  induction n with
  | zero => rfl
  | succ n ih =>
    obtain ⟨a, es, rfl⟩ := exists_node t
    obtain ⟨⟨hf, -⟩, hes⟩ := h
    have hkeys : ∀ w ∈ words es, w.1 < fbNilKey := by
      intro w hw
      obtain ⟨e, he, rfl⟩ := List.mem_map.mp hw
      exact (hk e he).1
    rw [ptr_node, treeAt, hf.slots_eq hkeys, words, List.map_map]
    congr 1
    conv_rhs => rw [← List.map_id es]
    refine List.map_congr_left fun e he => ?_
    simp only [Function.comp_apply, id]
    rw [ih (hes e he) (hk e he).2]

/-- The memory holds one tree only. -/
theorem Shape.tree_eq (h : Shape s R T) (hk : AllKeys IsKey T.2) : s.tree = T := by
  obtain ⟨N, t⟩ := T
  rw [Fb.tree, h.root, h.level, treeAt_eq h.linked hk]

/-- What can be reached from the hole of a path can be reached from the root. -/
theorem addrs_treeAt_le (h : LinkedPath (Holds s) path p) (hk : path.allKeys IsKey) :
    addrs (treeAt s n p) ≤ addrs (treeAt s (n + path.length) (rootOf path p)) := by
  induction path generalizing p with
  | top => exact le_rfl
  | @step n a pre k post up ih =>
    have hin : (k, p) ∈ (s.mem a).slots := by
      rw [h.1.1.slots_eq (path_words_lt hk)]
      simp
    have hchild : addrs (treeAt s n p) ≤ addrs (treeAt s (n + 1) a) := by
      have hentry : (k, treeAt s n p) ∈ (s.mem a).slots.map fun e => (e.1, treeAt s n e.2) :=
        List.mem_map.mpr ⟨(k, p), hin, rfl⟩
      rw [treeAt, addrs_node]
      exact (addrs_le_addrsOf hentry).trans (Multiset.le_add_left _ _)
    rw [Path.length, show n + (up.length + 1) = n + 1 + up.length by omega]
    exact hchild.trans (ih h.2.2.2 hk.2.2.2)

theorem Around.mem_nodes {path : Path ℕ ℕ (n + 1)} (h : Around s path p)
    (hk : path.allKeys IsKey) : p ∈ s.nodes := by
  have hle := addrs_treeAt_le h.linked hk
  rw [← h.root, ← h.level] at hle
  refine Multiset.mem_of_le hle ?_
  rw [treeAt, addrs_node]
  simp

theorem Shape.wellFormed (h : Shape s 0 T) (ho : Ordered True unmarked IsKey T.2) :
    WellFormed s := by
  have htree := h.tree_eq ho.allKeys
  exact ⟨htree ▸ h, htree ▸ ho⟩

theorem WellFormed.inv (h : WellFormed s) (hstart : s.freeNode = []) : Inv s s.tree :=
  ⟨h.shape, h.order, hstart⟩

end Tree

/-- Whether all nodes of a path are full can be seen on the stack. -/
theorem allFull_iff (h : Shape s R (plug path t)) (hk : AllKeys IsKey (plug path t).2) :
    allFull path = true ↔ ∀ pos ∈ path.positions, (s.mem pos.1).isFullNode := by
  induction path with
  | top => simp [allFull, Path.positions]
  | step a pre k post up ih =>
    rw [Path.positions, List.forall_mem_cons, full_iff_width h hk, ← ih h hk, allFull,
      Bool.and_eq_true, beq_iff_eq]

/-- Splitting along the stack of a search that ends in a full leaf keeps the pairs and the form of
the tree. The tree grows if the whole stack is full, and the next search for the key ends in a leaf
with a free slot. -/
theorem fbSplitNode_preserves {leaf idx : ℕ} {up : List (ℕ × ℕ)} (hfresh : Fresh alloc)
    (h : WellFormed s) (hstart : s.freeNode = []) (hlevel : s.level ≤ 5) (hkey : IsKey key)
    (hstack : (fbTraverse s key).1 = (leaf, idx) :: up) (hfull : (s.mem leaf).isFullNode) :
    ∃ s' leaf' idx' up',
      fbSplitNode alloc s (fbTraverse s key).1 = some (s', (fbTraverse s' key).1) ∧
      s'.pairs = s.pairs ∧ WellFormed s' ∧
      s'.level = (if ∀ pos ∈ (fbTraverse s key).1, (s.mem pos.1).isFullNode then s.level + 1
        else s.level) ∧
      (fbTraverse s' key).1 = (leaf', idx') :: up' ∧ ¬ (s'.mem leaf').isFullNode := by
  obtain ⟨path, p, hplug, hr, ht⟩ := fbTraverse_spec h.shape h.order hkey
  have hshape : Shape s 0 (plug path (data p)) := hplug ▸ h.shape
  have ho : Ordered True unmarked IsKey (plug path (data p)).2 := hplug ▸ h.order
  rw [ht] at hstack ⊢
  cases path with
  | top => cases hstack
  | step a pre k post up₀ =>
    obtain ⟨rfl, -⟩ : a = leaf ∧ pre.length = idx :=
      Prod.mk.inj (List.cons.inj hstack).1
    have hwidth := (full_iff_width hshape ho.allKeys).mp hfull
    have hlen := hshape.around.level
    obtain ⟨s', path', hsplit, hres, -⟩ := fbSplitNode_tree hfresh _ hshape ho.allKeys hwidth (by
      rw [hstart, List.length_nil]
      exact freeNode_room (.step a pre k post up₀) (by omega))
    obtain ⟨ho', hroomier⟩ := hres.order ho
    have ht' := fbTraverse_eq hres.shape.around ho' (hroomier False key hr)
    have hwf := hres.shape.wellFormed ho'
    cases path' with
    | top => exact absurd hres.used (by simp [Path.width])
    | step a' pre' k' post' up' =>
      refine ⟨s', a', pre'.length, up'.positions, ?_, ?_, hwf, ?_, ?_, ?_⟩
      · rw [ht']
        exact hsplit
      · rw [Fb.pairs, Fb.pairs, ← hplug, hres.shape.tree_eq ho'.allKeys, hres.sited.whole_eq]
      · have hlen' := hres.shape.around.level
        have hgrow := hres.length
        have hiff := allFull_iff hshape ho.allKeys
        split_ifs with hall
        · rw [hiff.mpr hall] at hgrow
          simp only [Bool.toNat_true] at hgrow
          omega
        · rw [Bool.eq_false_iff.mpr (mt hiff.mp hall)] at hgrow
          simp only [Bool.toNat_false] at hgrow
          omega
      · rw [ht']
        rfl
      · rw [full_iff_width hres.shape ho'.allKeys]
        have := hres.room
        rw [Path.width] at this
        omega

/-- A full leaf with the even keys below 256. What other nodes and the data hold does not matter. -/
def fullLeaf : Fb := ⟨fun _ => ⟨fun i => 2 * i, fun _ => 1⟩, 1, 1, {0, 1}, []⟩

theorem fullLeaf_wellFormed : WellFormed fullLeaf := by
  have hshape : Shape fullLeaf 0
      ⟨1, node 1 ((List.range 128).map fun i => (2 * i, (data 1 : Node ℕ ℕ 0)))⟩ := by
    refine ⟨rfl, rfl, ⟨⟨⟨by simp, fun i e he => ?_, fun i hge hlt => ?_⟩, by simp [words]⟩,
      fun _ _ => trivial⟩, ?_⟩
    · have hi := (List.getElem?_eq_some_iff.mp he).2
      simp only [words, List.getElem_map, List.getElem_range] at hi
      rw [← hi]
      exact ⟨rfl, rfl⟩
    · simp at hge
      omega
    · rw [addrs_node, addrsOf_data]
      decide
  refine hshape.wellFormed (ordered_leaf.mpr ⟨?_, by simp [unmarked], fun e he => ?_⟩)
  · rw [List.pairwise_map]
    exact List.pairwise_lt_range.imp fun hlt => by simpa using hlt
  · obtain ⟨i, hi, rfl⟩ := List.mem_map.mp he
    have := List.mem_range.mp hi
    show 2 * i < 4294967295
    omega

theorem fullLeaf_splits :
    ∃ s' leaf' idx' up',
      fbSplitNode nextNode fullLeaf (fbTraverse fullLeaf 100).1 =
        some (s', (fbTraverse s' 100).1) ∧
      s'.pairs = fullLeaf.pairs ∧ WellFormed s' ∧
      s'.level = (if ∀ pos ∈ (fbTraverse fullLeaf 100).1, (fullLeaf.mem pos.1).isFullNode
        then fullLeaf.level + 1 else fullLeaf.level) ∧
      (fbTraverse s' 100).1 = (leaf', idx') :: up' ∧ ¬ (s'.mem leaf').isFullNode :=
  fbSplitNode_preserves fresh_nextNode fullLeaf_wellFormed rfl (by decide)
    (show 100 < fbNilKey by decide)
    (show (fbTraverse fullLeaf 100).1 = [(1, 50)] by decide +kernel)
    (show (fullLeaf.mem 1).isFullNode by decide)

/-- A search for the nil key takes the last slot of a node, also when it is not in use. -/
theorem nilKey_reaches_full :
    WellFormed fullLeaf ∧ (fbTraverse fullLeaf fbNilKey).1 = [(1, 127)] ∧
      (fullLeaf.mem 1).isFullNode ∧
      ((fbSplitNode nextNode fullLeaf (fbTraverse fullLeaf fbNilKey).1).map fun r =>
        (fbTraverse r.1 fbNilKey).1.head?.map fun pos => decide (r.1.mem pos.1).isFullNode) =
          some (some true) :=
  ⟨fullLeaf_wellFormed, by decide +kernel, by decide, by decide +kernel⟩

/-- The nodes of a stack that have nothing but the entry of the stack are gone. The first one that
has more is replaced by a node without the entry; if there is none, the tree is empty. -/
def Unlinked (s s' : Fb) (stack : List (ℕ × ℕ)) : Prop :=
  let bare := (stack.takeWhile fun pos => (s.mem pos.1).remainOneKey).map Prod.fst
  match stack.dropWhile fun pos => (s.mem pos.1).remainOneKey with
  | [] => s'.level = 0 ∧ s.nodes = (bare : Multiset ℕ)
  | (a, i) :: _ => ∃ b, b ∉ s.live ∧ (s'.mem b).slots = (s.mem a).slots.eraseIdx i ∧
      s'.nodes + (a ::ₘ (bare : Multiset ℕ)) = s.nodes + {b}

/-- Pruning ends at the top, or at the first node that has another entry. -/
theorem prune_stops (h : Around s path p) (hk : path.allKeys IsKey) (b : ℕ) :
    let one := fun pos : ℕ × ℕ => decide (s.mem pos.1).remainOneKey
    (path.positions.dropWhile one = [] ∧
      (path.positions.takeWhile one).map Prod.fst = path.dropped ∧
      prune fbNilNode b path = ⟨0, data fbNilNode⟩) ∨
    ∃ m a pre k post q, ∃ up : Path ℕ ℕ (m + 1),
      path.positions.dropWhile one = (a, pre.length) :: up.positions ∧
      (path.positions.takeWhile one).map Prod.fst ++ [a] = path.dropped ∧
      prune fbNilNode b path = plug up (node b (pre ++ post)) ∧
      Around s (.step a pre k post up) q ∧ (Path.step a pre k post up).allKeys IsKey := by
  intro one
  induction path generalizing p with
  | top => exact .inl ⟨rfl, rfl, rfl⟩
  | step a pre k post up ih =>
    have hones := remainOne_iff_width h hk
    by_cases hone : (s.mem a).remainOneKey
    · have hnone := hones.mp hone
      have hpos : one (a, pre.length) = true := decide_eq_true hone
      rw [Path.positions, List.dropWhile_cons_of_pos hpos, List.takeWhile_cons_of_pos hpos,
        prune_none hnone, Path.dropped, if_pos hnone, List.map_cons]
      rcases ih h.parent hk.2.2.2 with ⟨hdrop, htake, hprune⟩ |
        ⟨m, a', pre', k', post', q, up', hdrop, htake, hprune, hstop⟩
      · exact .inl ⟨hdrop, by rw [htake], hprune⟩
      · exact .inr ⟨m, a', pre', k', post', q, up', hdrop, by rw [← htake]; rfl, hprune, hstop⟩
    · have hnone := mt hones.mpr hone
      have hneg : ¬ one (a, pre.length) = true := fun heq => hone (of_decide_eq_true heq)
      rw [Path.positions, List.dropWhile_cons_of_neg hneg, List.takeWhile_cons_of_neg hneg,
        prune_some hnone, Path.dropped, if_neg hnone]
      exact .inr ⟨_, a, pre, k, post, p, up, rfl, rfl, rfl, h, hk⟩

theorem unlinked_of_prune {path : Path ℕ ℕ 0} (h : Shape s 0 (plug path (data p)))
    (hk : AllKeys IsKey (plug path (data p)).2) (hb : b ∉ s.live)
    (h' : Shape s' 0 (prune fbNilNode b path)) : Unlinked s s' path.positions := by
  have hpath := (allKeys_plug.mp hk).2
  have hnodes : s.nodes = path.addrs := by
    rw [Fb.nodes, h.tree_eq hk, addrs_plug, addrs_data, zero_add]
  have hnodes' : s'.nodes = addrs (prune fbNilNode b path).2 := by
    rw [Fb.nodes, h'.tree_eq (allKeys_prune hpath)]
  have haddrs : addrs (prune fbNilNode b path).2 + (path.dropped : Multiset ℕ) =
      path.addrs + if (prune fbNilNode b path).1 = 0 then 0 else {b} := addrs_prune
  rcases prune_stops h.around hpath b with ⟨hdrop, htake, hprune⟩ |
    ⟨m, a, pre, k, post, q, up, hdrop, htake, hprune, haround, hkeys⟩
  · rw [Unlinked, hdrop, htake]
    refine ⟨?_, ?_⟩
    · rw [h'.level, hprune]
    · rw [hprune, addrs_data, zero_add, if_pos rfl, add_zero] at haddrs
      rw [hnodes, haddrs]
  · rw [Unlinked, hdrop]
    refine ⟨b, hb, ?_, ?_⟩
    · rw [hprune] at h'
      have hwords : ∀ w ∈ words (pre ++ post), w.1 < fbNilKey := by
        have := path_words_lt (p := q) hkeys
        rw [List.forall_mem_append, List.forall_mem_cons] at this
        rw [words_append, List.forall_mem_append]
        exact ⟨this.1, this.2.2⟩
      rw [h'.tree.1.1.slots_eq hwords, haround.linked.1.1.slots_eq (path_words_lt hkeys),
        ← length_words, List.eraseIdx_append_of_length_le le_rfl, Nat.sub_self,
        List.eraseIdx_cons_zero, words_append]
    · have hlevel : (plug up (node b (pre ++ post))).1 ≠ 0 := by
        rw [height_plug]
        omega
      rw [hprune, if_neg hlevel, ← htake, ← Multiset.coe_add, Multiset.coe_singleton] at haddrs
      rw [hnodes', hnodes, hprune, ← haddrs, ← Multiset.singleton_add]
      congr 1
      exact add_comm _ _

/-- There is data below every node. -/
theorem contents_ne_nil (h : Linked (Holds s) t) (k : ℕ) : contents (k, t) ≠ [] := by
  induction n generalizing k with
  | zero => exact List.cons_ne_nil _ _
  | succ n ih =>
    obtain ⟨a, es, rfl⟩ := exists_node t
    obtain ⟨⟨-, hne⟩, hes⟩ := h
    cases es with
    | nil => exact absurd rfl hne
    | cons e es =>
      intro hnil
      rw [contents_node, List.flatMap_cons, List.append_eq_nil_iff] at hnil
      exact ih (hes e List.mem_cons_self) e.1 hnil.1

/-- An empty tree is one without pairs. -/
theorem WellFormed.level_eq_zero_iff (h : WellFormed s) : s.level = 0 ↔ s.pairs = [] := by
  have hshape := h.shape
  rw [h.shape.level, Fb.pairs]
  generalize s.tree = T at hshape ⊢
  obtain ⟨N, t⟩ := T
  cases N with
  | zero => exact ⟨fun _ => rfl, fun _ => rfl⟩
  | succ N =>
    refine ⟨fun hzero => absurd hzero (Nat.succ_ne_zero N), fun hnil => ?_⟩
    obtain ⟨a, es, rfl⟩ := exists_node t
    exact absurd hnil (contents_ne_nil hshape.linked 0)

/-- `fb_remove` takes away the pair of a key that is there, with the nodes that hold nothing else,
and leaves the tree alone otherwise. -/
theorem fbRemove_exact (hfresh : Fresh alloc) (h : WellFormed s) (hstart : s.freeNode = [])
    (hlevel : s.level ≤ 8) (hkey : IsKey key) :
    ∃ b s', fbRemove alloc s key = some (b, s') ∧ (b = true ↔ ∃ d, (key, d) ∈ s.pairs) ∧
      (b = true → WellFormed s' ∧
        (∃ d l r, s.pairs = l ++ (key, d) :: r ∧ s'.pairs = l ++ r) ∧
        Unlinked s s' (fbTraverse s key).1 ∧ (s'.level = 0 ↔ s'.pairs = [])) ∧
      (b = false → s' = s) := by
  have hinv := h.inv hstart
  rw [Fb.pairs]
  generalize s.tree = T at hinv
  obtain ⟨path, p, rfl, hr, ht⟩ := fbTraverse_spec hinv.shape hinv.order hkey
  cases path with
  | top =>
    refine ⟨false, s, fbRemove_empty hinv.shape.level, ?_, by simp, fun _ => rfl⟩
    simp [whole]
  | step a pre k post up =>
    by_cases hk : k = key
    · obtain ⟨s', hremove, hsound⟩ := fbRemove_present hinv.sound ht hfresh hk hlevel
      have hwf := hsound.shape.wellFormed hinv.order.prune
      refine ⟨true, s', hremove, ⟨fun _ => ⟨p, ?_⟩, fun _ => rfl⟩,
        fun _ => ⟨hwf, ⟨p, (Path.step a pre k post up).before, (Path.step a pre k post up).after,
          ?_, ?_⟩, ?_, hwf.level_eq_zero_iff⟩, by simp⟩
      · rw [whole_cursor, hk]
        simp
      · rw [whole_cursor, hk]
      · rw [Fb.pairs, hsound.shape.tree_eq hsound.keys, whole_prune]
      · rw [ht]
        exact unlinked_of_prune hinv.shape hinv.sound.keys (hfresh _) hsound.shape
    · refine ⟨false, s, fbRemove_absent hinv.sound ht hk, ?_, by simp, fun _ => rfl⟩
      simp only [Bool.false_eq_true, false_iff, not_exists]
      exact absent_of_cursor hinv.order hr hk

theorem fullLeaf_remove :
    ∃ b s', fbRemove nextNode fullLeaf 100 = some (b, s') ∧
      (b = true ↔ ∃ d, (100, d) ∈ fullLeaf.pairs) ∧
      (b = true → WellFormed s' ∧
        (∃ d l r, fullLeaf.pairs = l ++ (100, d) :: r ∧ s'.pairs = l ++ r) ∧
        Unlinked fullLeaf s' (fbTraverse fullLeaf 100).1 ∧ (s'.level = 0 ↔ s'.pairs = [])) ∧
      (b = false → s' = fullLeaf) :=
  fbRemove_exact fresh_nextNode fullLeaf_wellFormed rfl (by decide) (show 100 < fbNilKey by decide)

end YwStorage.FbTree

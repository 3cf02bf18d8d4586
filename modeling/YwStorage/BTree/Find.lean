import YwStorage.BTree.Insert

/-! Searching a tree that no call is changing. -/
namespace YwStorage.BTree
open MultiTree

variable {α : Type} [LinearOrder α] {c : Config} {S : ℕ → Prop} {t : Tree α}
  {T : Σ N, Node α ℕ N} {n a b p fuel value : ℕ} {key : α} {up : Path α ℕ 1}
  {es : List (α × Node α ℕ 0)}

/-- The inner pages were made before the last change of the tree was over. They have lost no
records. -/
structure Settled (c : Config) (t : Tree α) : Prop where
  stamp : ∀ a, Reach t a → (t.mem a).isLeaf = false → (t.mem a).smoSeq < t.smoSeq
  dense : ∀ a, Reach t a → (t.mem a).isLeaf = false →
    (t.mem a).body.used = (t.mem a).entries.length * c.recordSize

/-- A tree whose leaves can be found. -/
structure Searchable (c : Config) (t : Tree α) (T : Σ N, Node α ℕ N) : Prop
    extends Stands c (fun _ => True) t T where
  height : 0 < T.1
  readable : 1 < T.1 → Readable (mark t.mem) T.2
  unlocked : t.locked = ∅
  stamp : ∀ a, Reach t a → (t.mem a).isLeaf = false → (t.mem a).smoSeq < t.smoSeq

theorem WellFormed.searchable (h : WellFormed c (fun _ => True) t T) (hs : Settled c t) :
    Searchable c t T :=
  ⟨h.toStands, h.height, h.readable, h.unlocked, hs.stamp⟩

/-- The nodes on a path can be reached, and they are not leaves. -/
theorem reach_nodes (path : Path α ℕ n) (hn : n ≠ 0) (hl : LinkedPath (Holds c S t.mem) path p)
    (hroot : t.root = path.root p) :
    ∀ b ∈ path.nodes, Reach t b ∧ (t.mem b).isLeaf = false := by
  induction path generalizing p with
  | top => simp [Path.nodes, Path.positions]
  | step a pre k post up ih =>
    obtain ⟨hpage, -, -, hup⟩ := hl
    show ∀ b ∈ a :: up.nodes, _
    rw [List.forall_mem_cons]
    refine ⟨⟨reach_path up (by omega) hup hroot, ?_⟩, ih (by omega) hup hroot⟩
    rw [hpage.isLeaf, decide_eq_false hn]

namespace Stands

/-- Only pages of the tree can be reached. -/
theorem reach_mem (h : Stands c S t T) (hheight : 0 < T.1) (hb : Reach t b) : b ∈ addrs T.2 := by
  induction hb with
  | root =>
    obtain ⟨N, x⟩ := T
    obtain ⟨n, rfl⟩ := Nat.exists_eq_succ_of_ne_zero hheight.ne'
    rw [h.root]
    exact ptr_mem_addrs x
  | child ha hinner he ih =>
    obtain ⟨m, es, hpage, -, hsub⟩ := h.linked.exists_node ih
    rw [hpage.isLeaf, decide_eq_false_iff_not] at hinner
    obtain ⟨m, rfl⟩ := Nat.exists_eq_succ_of_ne_zero hinner
    rw [hpage.entries] at he
    obtain ⟨f, hf, rfl⟩ := List.mem_map.mp he
    exact hsub f hf _ (ptr_mem_addrs f.2)

theorem one_lt_of_inner (h : Stands c S t T) (hheight : 0 < T.1) (hb : Reach t b)
    (hinner : (t.mem b).isLeaf = false) : 1 < T.1 := by
  obtain ⟨m, es, hpage, hm, -⟩ := h.linked.exists_node (h.reach_mem hheight hb)
  rw [hpage.isLeaf, decide_eq_false_iff_not] at hinner
  omega

theorem mem_live (h : Stands c S t T) (hb : b ∈ addrs T.2) : b ∈ t.live :=
  Multiset.mem_of_le h.count (Multiset.mem_cons_of_mem hb)

theorem ne_zero (h : Stands c S t T) (hb : b ∈ addrs T.2) : b ≠ 0 := by
  have hnodup := Multiset.nodup_of_le h.count t.live.nodup
  rintro rfl
  exact (Multiset.nodup_cons.mp hnodup).1 hb

/-- The page of a leaf. -/
theorem leaf_page (h : Stands c S t T) (hT : T = plug up (node a es)) :
    Holds c S t.mem 0 a (words es) := by
  subst hT
  exact (linked_plug.mp h.linked).1.1

theorem leaf_mem (hT : T = plug up (node a es)) : a ∈ addrs T.2 := by
  subst hT
  rw [addrs_plug, addrs_node]
  simp

end Stands

namespace Searchable

/-- `find_leaf` comes to the leaf for the key. -/
theorem findLeaf (h : Searchable c t T) (hT : T = plug up (node a es))
    (hroom : room False (fun _ => True) up key) (hfuel : T.1 ≤ fuel) :
    t.findLeaf fuel key = some a := by
  have hpage := h.leaf_page hT
  have ha := h.ne_zero (Stands.leaf_mem hT)
  have hnodes : ∀ b ∈ up.nodes, b ≠ 0 := fun b hb => by
    refine h.ne_zero ?_
    rw [hT, addrs_plug]
    exact Multiset.mem_add.mpr (.inr (up.nodes_subset b hb))
  subst hT
  have hpath : LinkedPath (Holds c (fun _ => True) t.mem) up a := (linked_plug.mp h.linked).2
  have hroot : t.root = up.root a := by rw [h.root, ptr_plug, ptr_node]
  have hreach := reach_nodes up (by omega) hpath hroot
  rw [height_plug] at hfuel
  obtain ⟨m, rfl⟩ : ∃ m, fuel = up.length + (m + 1) := ⟨fuel - up.length - 1, by omega⟩
  rw [Tree.findLeaf, hroot, findLoop_path up (leads_of_room up (by omega) hpath h.order hroom)
    h.unlocked ha hnodes fun b hb => h.stamp b (hreach b hb).1 (hreach b hb).2, Tree.findLoop]
  simp [hpage.isLeaf]

/-- The records of a key that the search takes to a leaf are there. -/
theorem mem_leaf (h : Stands c S t T) (hT : T = plug up (node a es))
    (hroom : room False (fun _ => True) up key) (hmem : (key, value) ∈ whole T) :
    (key, data value) ∈ es := by
  subst hT
  obtain ⟨hbefore, hafter⟩ := h.order.between hroom
  rw [whole_plug, inner_node, List.mem_append, List.mem_append] at hmem
  rcases hmem with (hmem | hmem) | hmem
  · exact absurd (hbefore _ hmem) (lt_irrefl key)
  · obtain ⟨e, he, hce⟩ := List.mem_flatMap.mp hmem
    obtain rfl : (key, value) = e := List.mem_singleton.mp hce
    exact he
  · exact absurd (hafter _ hmem) (lt_irrefl key)

/-- `find` gives the value of every key in the tree. -/
theorem find_eq (h : Searchable c t T) (hmem : (key, value) ∈ whole T) (hfuel : T.1 ≤ fuel) :
    t.find fuel key = some (some value) := by
  obtain ⟨a, es, up, hT, hroom⟩ := h.exists_leaf h.height h.readable key
  have hpage := h.leaf_page hT
  obtain ⟨us, vs, rfl⟩ := List.append_of_mem (mem_leaf h.toStands hT hroom hmem)
  have hentries : (t.mem a).entries = words us ++ (key, value) :: words vs := by
    rw [hpage.entries, words_append, words_cons]
    rfl
  have hsorted : (us ++ (key, data value) :: vs).Pairwise fun e f => e.1 < f.1 := by
    have horder := h.order
    rw [hT] at horder
    exact horder.hole.keys_sorted
  rw [List.pairwise_append, List.pairwise_cons] at hsorted
  have hfloor : (t.mem a).floor key = (words us).length := by
    refine floor_of_cut hentries (fun f hf => ?_) (fun _ => le_rfl) fun f hf => ?_
    · obtain ⟨e, he, rfl⟩ := List.mem_map.mp hf
      exact hsorted.2.2 e he _ (List.mem_cons_self ..)
    · obtain ⟨e, he, rfl⟩ := List.mem_map.mp hf
      exact hsorted.2.1.1 e he
  have hne : (t.mem a).entries ≠ [] := by simp [hentries]
  have hget := get_of_cut hentries
  rw [← hfloor] at hget
  rw [Tree.find, h.findLeaf hT hroom hfuel]
  simp [hne, h.unlocked, hget]

end Searchable
end YwStorage.BTree

import YwStorage.BTree.Failure

/-! What a call does to a single leaf of a tree that no call is splitting. -/
namespace YwStorage.BTree
open MultiTree SortedMap Supply

variable {α : Type} [LinearOrder α] {c : Config} {S : ℕ → Prop} {t : Tree α}
  {T : Σ N, Node α ℕ N} {a fuel value : ℕ} {key : α} {up : Path α ℕ 1}
  {es us vs : List (α × Node α ℕ 0)} {p : Page α}

/-- A leaf gets other records of its region. -/
theorem WellFormed.setLeaf (h : WellFormed c S t T) (hT : T = plug up (node a es))
    {fs : List (α × Node α ℕ 0)} (hpage : Holds c S (t.setPage a p).mem 0 a (words fs))
    (hsorted : fs.Pairwise fun e f => e.1 < f.1)
    (hin : ∀ e ∈ fs, room False (fun _ => True) up e.1)
    (hmark : ∀ k ∈ mark (t.setPage a p).mem a, room False (fun _ => True) up k)
    (hread : fs = [] → mark (t.setPage a p).mem a ≠ none) :
    WellFormed c S (t.setPage a p) (plug up (node a fs)) := by
  subst hT
  have hnodup := Multiset.nodup_of_le h.count t.live.nodup
  rw [addrs_plug, addrs_node, Multiset.nodup_cons] at hnodup
  have ha : ∀ b ∈ up.addrs, b ≠ a := by
    rintro b hb rfl
    have hdisjoint := (Multiset.nodup_add.mp hnodup.2).2.2
    exact Multiset.disjoint_left.mp hdisjoint (by simp) hb
  have hmem : ∀ b ∈ up.addrs, (t.setPage a p).mem b = t.mem b := fun b hb =>
    Function.update_of_ne (ha b hb) _ _
  have hmarks : ∀ b ∈ up.addrs, mark (t.setPage a p).mem b = mark t.mem b := fun b hb =>
    mark_congr (hmem b hb)
  refine ⟨⟨?_, ?_, ?_, ?_⟩, ?_, fun hheight => ?_, h.clean, h.rcu_nodup, h.unlocked, h.even,
    h.seq_lt⟩
  · show t.root = _
    rw [h.root, ptr_plug, ptr_plug, ptr_node, ptr_node]
  · refine linked_plug.mpr ⟨⟨hpage, fun _ _ => trivial⟩, ?_⟩
    rw [ptr_node]
    exact (linked_plug.mp h.linked).2.congr fun b hb _ _ hold => hold.congr (hmem b hb)
  · exact h.order.replug hmarks (ordered_leaf.mpr ⟨hsorted, hmark, hin⟩)
  · show 0 ::ₘ addrs (plug up (node a fs)).2 ≤ t.live.val
    have hcount := h.count
    rw [addrs_plug, addrs_node, addrsOf_data] at hcount ⊢
    exact hcount
  · rw [height_plug]
    omega
  · rw [height_plug] at hheight
    refine (h.readable ?_).replug hmarks (readable_leaf.mpr ⟨hread, fun hne => ?_⟩)
    · rwa [height_plug]
    · by_contra hfs
      exact hne (hpage.mark_none hfs)

/-- The records of a leaf, in the order of their keys and in its region. -/
theorem Stands.leaf_records (h : Stands c S t T) (hT : T = plug up (node a es)) :
    es.Pairwise (fun e f => e.1 < f.1) ∧ (∀ k ∈ mark t.mem a, room False (fun _ => True) up k) ∧
      ∀ e ∈ es, room False (fun _ => True) up e.1 := by
  subst hT
  exact ordered_leaf.mp h.order.hole

/-- `remove` on a leaf that has the key. -/
theorem Holds.remove_of_mem {mem : ℕ → Page α}
    (h : Holds c S mem 0 a (words (us ++ (key, data value) :: vs)))
    (hsorted : (us ++ (key, (data value : Node α ℕ 0)) :: vs).Pairwise fun e f => e.1 < f.1) :
    (mem a).remove key = (true, { mem a with
      body := ⟨words us ++ words vs, (mem a).body.used⟩
      old := (mem a).entries.head?.or (mem a).old }) := by
  rw [List.pairwise_append, List.pairwise_cons] at hsorted
  have hentries : (mem a).entries = words us ++ (key, value) :: words vs := by
    rw [h.entries, words_append, words_cons]
    rfl
  exact remove_of_cut hentries (List.forall_mem_map.mpr fun e he =>
    hsorted.2.2 e he _ List.mem_cons_self) (List.forall_mem_map.mpr hsorted.2.1.1)

/-- `remove` on a leaf that does not have the key. -/
theorem Holds.remove_of_not_mem {mem : ℕ → Page α} (h : Holds c S mem 0 a (words (us ++ vs)))
    (hus : ∀ e ∈ us, e.1 < key) (hvs : ∀ e ∈ vs, key < e.1) : ((mem a).remove key).1 = false := by
  have hentries : (mem a).entries = words us ++ words vs := by rw [h.entries, words_append]
  exact remove_of_absent hentries (List.forall_mem_map.mpr hus) (List.forall_mem_map.mpr hvs)

theorem WellFormed.sorted (h : WellFormed c S t T) : Sorted (whole T) := by
  have horder := h.order
  have hheight := h.height
  obtain ⟨N, x⟩ := T
  obtain ⟨n, rfl⟩ := Nat.exists_eq_succ_of_ne_zero hheight.ne'
  exact horder.sorted

/-- A record comes to the leaf for its key. -/
theorem WellFormed.addRecord (h : WellFormed c S t T) (hT : T = plug up (node a (us ++ vs)))
    (hroom : room False (fun _ => True) up key) (hus : ∀ e ∈ us, e.1 < key)
    (hvs : ∀ e ∈ vs, key < e.1) (hfits : (t.mem a).Fits c)
    (hp : p = { t.mem a with
      body := ⟨words us ++ (key, value) :: words vs, (t.mem a).body.used + c.recordSize⟩ }) :
    WellFormed c S (t.setPage a p) (plug up (node a (us ++ (key, data value) :: vs))) := by
  obtain ⟨hsorted, -, hin⟩ := h.leaf_records hT
  have hmem : (t.setPage a p).mem a = p := Function.update_self ..
  have hwords : words (us ++ (key, (data value : Node α ℕ 0)) :: vs) =
      words us ++ (key, value) :: words vs := by
    rw [words_append, words_cons]
    rfl
  have hpage : Holds c S (t.setPage a p).mem 0 a (words (us ++ (key, data value) :: vs)) := by
    refine (h.leaf_page hT).grow hfits ?_ ?_
    · rw [hmem, hp, hwords]
    · simp [words]
      omega
  have hmark : mark (t.setPage a p).mem a = none := hpage.mark_none (by simp)
  refine h.setLeaf hT hpage ?_ ?_ (by simp [hmark]) (by simp)
  · rw [List.pairwise_append] at hsorted ⊢
    refine ⟨hsorted.1, List.pairwise_cons.mpr ⟨hvs, hsorted.2.1⟩, fun e he => ?_⟩
    rw [List.forall_mem_cons]
    exact ⟨hus e he, hsorted.2.2 e he⟩
  · rw [List.forall_mem_append] at hin ⊢
    rw [List.forall_mem_cons]
    exact ⟨hin.1, hroom, hin.2⟩

/-- A record leaves its leaf. If it was the last one, its key stays in the empty page. -/
theorem WellFormed.dropRecord (h : WellFormed c S t T)
    (hT : T = plug up (node a (us ++ (key, data value) :: vs)))
    (hp : p = { t.mem a with
      body := ⟨words us ++ words vs, (t.mem a).body.used⟩
      old := (t.mem a).entries.head?.or (t.mem a).old }) :
    WellFormed c S (t.setPage a p) (plug up (node a (us ++ vs))) := by
  obtain ⟨hsorted, -, hin⟩ := h.leaf_records hT
  have hold := h.leaf_page hT
  have hmem : (t.setPage a p).mem a = p := Function.update_self ..
  have hpage : Holds c S (t.setPage a p).mem 0 a (words (us ++ vs)) := by
    have hused := hold.used
    have hspace := hold.space
    simp only [length_words, List.length_append, List.length_cons, Nat.add_mul, Nat.one_mul]
      at hused hspace
    refine ⟨?_, ?_, ?_, ?_, fun hzero => absurd rfl hzero⟩
    all_goals rw [hmem, hp]
    · exact hold.isLeaf
    · rw [words_append]
    · rw [length_words, List.length_append, Nat.add_mul]
      show _ ≤ (t.mem a).body.used
      omega
    · rw [length_words, List.length_append, Nat.add_mul]
      show _ + (t.mem a).body.used ≤ _
      omega
  have hempty : us ++ vs = [] → mark (t.setPage a p).mem a = some key := by
    intro hnil
    obtain ⟨rfl, rfl⟩ := List.append_eq_nil_iff.mp hnil
    have hentries : (t.mem a).entries = [(key, value)] := hold.entries
    rw [mark, hmem, hp]
    simp [hentries, words]
  have hroom : room False (fun _ => True) up key := hin (key, data value) (by simp)
  have hless : (us ++ vs).Sublist (us ++ (key, data value) :: vs) :=
    List.Sublist.append_left (List.sublist_cons_self _ _) us
  refine h.setLeaf hT hpage (hsorted.sublist hless) (fun e he => hin e (hless.subset he)) ?_ ?_
  · by_cases hnil : us ++ vs = []
    · rw [hempty hnil]
      simpa using hroom
    · rw [hpage.mark_none hnil]
      simp
  · intro hnil
    rw [hempty hnil]
    simp

/-- The record is new in the whole tree. -/
theorem Stands.inserted (h : Stands c S t T) (hT : T = plug up (node a (us ++ vs)))
    (hroom : room False (fun _ => True) up key) (hus : ∀ e ∈ us, e.1 < key)
    (hvs : ∀ e ∈ vs, key < e.1) :
    Inserted (whole T) (whole (meant up a us vs key (data value))) key value := by
  subst hT
  obtain ⟨hbefore, hafter⟩ := h.order.between hroom
  refine ⟨_, _, whole_leaf, whole_meant, fun e he => ?_, fun e he => ?_⟩
  · rcases List.mem_append.mp he with he | he
    · exact hbefore e he
    · obtain ⟨f, hf, hef⟩ := List.mem_flatMap.mp he
      rw [List.mem_singleton.mp hef]
      exact hus f hf
  · rcases List.mem_append.mp he with he | he
    · obtain ⟨f, hf, hef⟩ := List.mem_flatMap.mp he
      rw [List.mem_singleton.mp hef]
      exact hvs f hf
    · exact hafter e he

theorem removed_leaf : Removed (whole (plug up (node a (us ++ (key, data value) :: vs))))
    (whole (plug up (node a (us ++ vs)))) key value :=
  ⟨_, _, whole_meant, whole_leaf⟩

/-- With enough pages and locks a leaf that can be split takes the record. -/
theorem WellFormed.smoInsert_inserted {supply : Finset ℕ → Option ℕ}
    (h : WellFormed c (fun _ => True) t T) (hs : Settled c t)
    (hT : T = plug up (node a (us ++ vs))) (hroom : room False (fun _ => True) up key)
    (hus : ∀ e ∈ us, e.1 < key) (hvs : ∀ e ∈ vs, key < e.1) (hsplit : Splittable us vs)
    (hfresh : FreshSupply supply) (htotal : ∀ live, supply live ≠ none)
    (hcap : 2 * (c.recordSize + c.page.slotSize) ≤ c.page.bodySize) (hfuel : T.1 ≤ fuel)
    (hheight : T.1 ≤ 5) :
    ∃ t' T', t.smoInsert c supply fuel (key, value) = some (true, t') ∧
      WellFormed c (fun _ => True) t' T' ∧ Inserted (whole T) (whole T') key value := by
  obtain ⟨s', T', hrun, hdone⟩ : ∃ s' T', t.smoInsert c supply fuel (key, value) =
      some (true, s'.finish true) ∧ Succeeded c (fun _ => True) supply (t.begin.pushLock a)
        up.nodes a (meant up a us vs key (data value)) s' T' :=
    h.smoInsert_succeeds hT hfresh htotal hcap trivial hroom hus hvs hsplit (h.wide hs hcap hT)
      hfuel hheight
  have hpos : 0 < T'.1 := by
    have hgrown := hdone.height
    rw [height_plug] at hgrown
    omega
  have hodd : s'.tree.smoSeq % 2 = 1 := by
    have heven := h.even
    rw [hdone.smoSeq]
    show (t.smoSeq + 1) % 2 = 1
    omega
  refine ⟨_, T', hrun, hdone.done.wellFormed hpos hodd, ?_⟩
  rw [hdone.whole]
  exact h.inserted hT hroom hus hvs

/-- A new tree. -/
theorem wellFormed_create (mem : ℕ → Page α) {root : ℕ} (hroot : root ≠ 0) :
    WellFormed c S (Tree.create mem root) ⟨1, node root []⟩ := by
  have hmem : (Tree.create mem root).mem root = Tree.blankPage 0 true := Function.update_self ..
  have hpage : Holds c S (Tree.create mem root).mem 0 root [] := by
    refine ⟨by rw [hmem]; rfl, by rw [hmem]; rfl, by simp, ?_, fun hzero => absurd rfl hzero⟩
    rw [hmem]
    simp [Tree.blankPage, OrderedNode.AbsPage.empty]
  have hmark : mark (Tree.create mem root).mem root = none := by
    rw [mark, hmem]
    rfl
  refine ⟨⟨rfl, ⟨hpage, fun _ _ => trivial⟩, ordered_leaf.mpr ⟨.nil, by simp [hmark], by simp⟩, ?_⟩,
    Nat.one_pos, fun hlt => absurd hlt (lt_irrefl 1), ?_, List.nodup_nil, rfl, rfl,
    Nat.two_pow_pos 32⟩
  · show 0 ::ₘ ({root} + 0) ≤ ({0, root} : Finset ℕ).val
    rw [Multiset.le_iff_subset]
    · intro b hb
      simpa using hb
    · simpa using hroot.symm
  · simp [Tree.create]

end YwStorage.BTree

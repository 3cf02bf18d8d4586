import YwStorage.BTree.Cascade

/-! The part of `insert` that splits, from a tree that no call is changing to another one. -/
namespace YwStorage.BTree
open MultiTree Programs Supply SortedMap

variable {α : Type} [LinearOrder α] {c : Config} {S : ℕ → Prop} {supply : Finset ℕ → Option ℕ}
  {t : Tree α} {s s' : Call α} {T T' : Σ N, Node α ℕ N} {a b fuel value : ℕ} {key : α}
  {up : Path α ℕ 1} {us vs : List (α × Node α ℕ 0)}

/-- The call when it has locked `smo_seq`. -/
def Tree.begin (t : Tree α) : Call α := ⟨{ t with smoSeq := t.smoSeq + 1 }, [], [], []⟩

/-- A key that is not in a sorted leaf has a place there. -/
theorem exists_place {es : List (α × Node α ℕ 0)} (hs : es.Pairwise fun e f => e.1 < f.1)
    (habsent : ∀ e ∈ es, e.1 ≠ key) :
    ∃ us vs, es = us ++ vs ∧ (∀ e ∈ us, e.1 < key) ∧ ∀ e ∈ vs, key < e.1 := by
  have hle : es.Pairwise fun e f => e.1 ≤ f.1 := hs.imp fun h => h.le
  refine ⟨OrderedNode.below Prod.fst (key, data 0) es, OrderedNode.above Prod.fst (key, data 0) es,
    (OrderedNode.below_append_above Prod.fst (key, data 0) es).symm, fun e he => ?_,
    fun e he => OrderedNode.lt_of_mem_above hle he⟩
  have hmem : e ∈ es := by
    rw [← OrderedNode.below_append_above Prod.fst (key, data 0) es]
    exact List.mem_append_left _ he
  exact lt_of_le_of_ne (OrderedNode.le_of_mem_below he) (habsent e hmem)

/-- The leaf is locked, and the record has to go to it. -/
theorem WellFormed.rising (h : WellFormed c S t T) (hT : T = plug up (node a (us ++ vs)))
    (hS : S (t.smoSeq + 1)) (hroom : room False (fun _ => True) up key)
    (hus : ∀ e ∈ us, e.1 < key) (hvs : ∀ e ∈ vs, key < e.1) (hne : us ++ vs ≠ []) :
    Rising c S (t.begin.pushLock a) up a us vs key (data value) 0 := by
  subst hT
  obtain ⟨hlinked, hpath⟩ := linked_plug.mp h.linked
  have hpage : Holds c S t.mem 0 a (words (us ++ vs)) := hlinked.1
  have hmark := hpage.mark_none hne
  obtain ⟨hsorted, -, hin⟩ := ordered_leaf.mp h.order.hole
  have hcount := h.count
  have hnodup := Multiset.nodup_of_le hcount t.live.nodup
  rw [addrs_plug, Multiset.nodup_cons, Multiset.nodup_add] at hnodup
  have haddrs : addrs (meant up a us vs key (data value)).2 =
      addrs (plug up (node a (us ++ vs))).2 := by
    rw [addrs_plug, addrs_plug, addrs_node, addrs_node, addrsOf_data, addrsOf_data]
  refine ⟨⟨?_, hpath, hpage, fun e _ => trivial, ?_, ?_, ⟨⟨?_, h.clean, h.rcu_nodup, ?_, ?_, ?_⟩,
    rfl, rfl, rfl⟩, hS, ?_, ?_⟩, List.mem_cons_self ..⟩
  · show t.root = _
    rw [h.root, ptr_plug, ptr_node]
  · refine h.order.replug (fun _ _ => rfl) (ordered_leaf.mpr ⟨?_, ?_, ?_⟩)
    · rw [List.pairwise_append] at hsorted ⊢
      refine ⟨hsorted.1, List.pairwise_cons.mpr ⟨hvs, hsorted.2.1⟩, fun e he => ?_⟩
      rw [List.forall_mem_cons]
      exact ⟨hus e he, hsorted.2.2 e he⟩
    · show ∀ k ∈ mark t.mem a, _
      simp [hmark]
    · rw [List.forall_mem_append] at hin ⊢
      rw [List.forall_mem_cons]
      exact ⟨hin.1, hroom, hin.2⟩
  · have hleaf : Readable (mark t.mem) (node a (us ++ (key, data value) :: vs)) :=
      readable_leaf.mpr (iff_of_false (by simp) (by simp [hmark]))
    cases up with
    | top => exact hleaf
    | step p pre k post up' =>
      refine (h.readable ?_).replug (fun _ _ => rfl) hleaf
      rw [height_plug, Path.length]
      omega
  · rw [haddrs]
    show 0 ::ₘ (addrs (plug up (node a (us ++ vs))).2 + 0) ≤ t.live.val
    rw [add_zero]
    exact hcount
  · show insert a t.locked = [a].toFinset
    rw [h.unlocked]
    rfl
  · show ∀ b ∈ [a], b ∈ t.live
    rw [List.forall_mem_singleton]
    refine Multiset.mem_of_le hcount (Multiset.mem_cons_of_mem ?_)
    rw [addrs_plug, addrs_node]
    simp
  · show ∀ b ∈ ([] : List ℕ), _
    simp
  · intro b hb
    have hba : b ≠ a := by
      rintro rfl
      refine Multiset.disjoint_left.mp hnodup.2.2.2 ?_ (up.nodes_subset b hb)
      simp [addrs_node]
    show b ∉ [a]
    simpa using hba
  · show ∀ b ∈ a :: up.nodes, b ∉ ([] : List ℕ)
    simp

/-- `traverse_with_stack` comes to the leaf, which has records. -/
theorem WellFormed.run_smoInsert (h : WellFormed c S t T) (hT : T = plug up (node a (us ++ vs)))
    (hroom : room False (fun _ => True) up key) (hne : us ++ vs ≠ [])
    (hdepth : up.length < maxDepth) :
    Call.smoInsert c supply fuel (key, value) t.begin =
      Call.splitInsert c supply fuel up.nodes a (key, value) (t.begin.pushLock a) := by
  subst hT
  obtain ⟨hlinked, hpath⟩ := linked_plug.mp h.linked
  have hpage : Holds c S t.mem 0 a (words (us ++ vs)) := hlinked.1
  have hzero : ∀ b ∈ addrs (plug up (node a (us ++ vs))).2, b ≠ 0 := by
    have hnodup := Multiset.nodup_of_le h.count t.live.nodup
    rintro b hb rfl
    exact (Multiset.nodup_cons.mp hnodup).1 hb
  rw [addrs_plug] at hzero
  have hentries : (t.mem a).entries ≠ [] := by
    rw [hpage.entries]
    simpa [words] using hne
  have hunlocked : a ∉ t.begin.tree.locked := by
    show a ∉ t.locked
    rw [h.unlocked]
    simp
  have hroot : t.begin.tree.root = up.root a := by
    show t.root = _
    rw [h.root, ptr_plug, ptr_node]
  have htraverse : Call.traverseLoop key maxDepth t.begin.tree.root [] t.begin =
      some (some (a :: up.nodes), t.begin.pushLock a) := by
    refine (wp_traverse (leads_of_room up (by omega) hpath h.order hroom) hroot
      (hzero a (by simp [addrs_node])) (fun b hb => hzero b ?_) hdepth ?_ rfl hunlocked
      (floor_lt hentries) ⟨rfl, rfl⟩).run
    · exact Multiset.mem_add.mpr (.inr (up.nodes_subset b hb))
    · show (t.mem a).isLeaf = true
      rw [hpage.isLeaf]
      rfl
  exact run_bind htraverse

/-- The part of `insert` under `smo_guard`, for a tree that is not too high. -/
theorem WellFormed.wp_smoInsert (h : WellFormed c S t T) (hT : T = plug up (node a (us ++ vs)))
    (hfresh : FreshSupply supply) (hcap : 2 * (c.recordSize + c.page.slotSize) ≤ c.page.bodySize)
    (hS : S (t.smoSeq + 1)) (hroom : room False (fun _ => True) up key)
    (hus : ∀ e ∈ us, e.1 < key) (hvs : ∀ e ∈ vs, key < e.1) (hsplit : Splittable us vs)
    (hwide : ∀ p ∈ up.nodes, ¬ (t.mem p).Fits c → 2 ≤ (t.mem p).entries.length)
    (hfuel : T.1 ≤ fuel) (hdepth : up.length < maxDepth) :
    Wp (Call.smoInsert c supply fuel (key, value)) t.begin
      (fun _ s' => ∃ T', Succeeded c S supply (t.begin.pushLock a) up.nodes a
        (meant up a us vs key (data value)) s' T')
      (Failed c supply (t.begin.pushLock a) up.nodes 0) := by
  have hrising : Rising c S (t.begin.pushLock a) up a us vs key (data value) 0 :=
    h.rising hT hS hroom hus hvs hsplit.1
  rw [wp_congr (h.run_smoInsert hT hroom hsplit.1 hdepth)]
  rw [hT, height_plug] at hfuel
  exact hrising.wp_splitInsert hfresh hcap hsplit hwide (by omega) (by decide)

/-- The pages that have been split go to the RCU. -/
theorem Done.wellFormed (h : Done c S s T) (hheight : 0 < T.1)
    (hodd : s.tree.smoSeq % 2 = 1) : WellFormed c S (s.finish true) T := by
  have hb := h.books
  have hnodup := Multiset.nodup_of_le hb.count s.tree.live.nodup
  have hsub := Multiset.subset_of_le hb.count
  simp only [Multiset.nodup_cons, Multiset.nodup_add, Multiset.mem_add, not_or] at hnodup
  obtain ⟨⟨hzero, hzero'⟩, haddrs, hfree, hdisjoint⟩ := hnodup
  refine ⟨⟨h.root, h.linked, h.order, ?_⟩, hheight, fun _ => h.readable, fun b hrcu => ?_, ?_, ?_,
    ?_, ?_⟩
  · show 0 ::ₘ addrs T.2 ≤ (s.tree.live \ s.freeStack.toFinset).val
    rw [Multiset.le_iff_subset (Multiset.nodup_cons.mpr ⟨hzero, haddrs⟩)]
    intro b hb'
    rw [Finset.mem_val, Finset.mem_sdiff, List.mem_toFinset]
    rcases Multiset.mem_cons.mp hb' with rfl | hb'
    · exact ⟨hsub (by simp), by simpa using hzero'⟩
    · refine ⟨hsub (by simp [hb']), fun hfreed => ?_⟩
      exact Multiset.disjoint_left.mp hdisjoint hb' (Multiset.mem_coe.mpr hfreed)
  · show b ∉ s.tree.live \ s.freeStack.toFinset
    rw [Finset.mem_sdiff, List.mem_toFinset]
    rcases List.mem_append.mp hrcu with hfreed | hold
    · exact fun hmem => hmem.2 hfreed
    · exact fun hmem => hb.clean b hold hmem.1
  · refine List.nodup_append.mpr ⟨Multiset.coe_nodup.mp hfree, hb.rcu_nodup, ?_⟩
    rintro b hfreed _ hrcu rfl
    exact hb.clean b hrcu (hb.free_mem hfreed)
  · show s.tree.locked \ s.lockStack.toFinset = ∅
    rw [hb.locked, Finset.sdiff_self]
  · show (s.tree.smoSeq + 1) % 2 ^ 32 % 2 = 0
    omega
  · show (s.tree.smoSeq + 1) % 2 ^ 32 < 2 ^ 32
    omega

theorem getLast_mem_take {l : List ℕ} (hne : l ≠ []) (hnodup : l.Nodup) (m : ℕ) :
    l.getLast hne ∈ l.take m ↔ l.length ≤ m := by
  constructor
  · intro hmem
    by_contra hlt
    have hdrop : l.drop m ≠ [] := by
      rw [← List.length_pos_iff, List.length_drop]
      omega
    have hlast : l.getLast hne ∈ l.drop m := by
      rw [← List.getLast_drop hdrop]
      exact List.getLast_mem hdrop
    exact List.disjoint_take_drop hnodup le_rfl hmem hlast
  · intro hle
    rw [List.take_of_length_le hle]
    exact List.getLast_mem hne

/-- The old root goes to the RCU just if all nodes on the way are split. -/
theorem Succeeded.root_mem (h : WellFormed c S t T) (hT : T = plug up (node a (us ++ vs)))
    (hs : Succeeded c S supply (t.begin.pushLock a) up.nodes a
      (meant up a us vs key (data value)) s' T') :
    t.root ∈ (s'.finish true).rcu ↔ fullRun c t.mem up.nodes = up.nodes.length := by
  subst hT
  have hroot : t.root = (a :: up.nodes).getLast (List.cons_ne_nil _ _) := by
    rw [h.root, ptr_plug, ptr_node, Path.getLast_nodes]
  have hnodup : (a :: up.nodes).Nodup := by
    have hcount := Multiset.nodup_of_le h.count t.live.nodup
    rw [addrs_plug, addrs_node, Multiset.nodup_cons] at hcount
    refine Multiset.coe_nodup.mp (Multiset.nodup_of_le ?_ hcount.2)
    rw [← Multiset.cons_coe, ← Multiset.singleton_add]
    exact add_le_add (Multiset.le_add_right _ _) up.nodes_le
  have hlive : t.root ∈ s'.tree.live := by
    refine grown_subset hs.grown (Multiset.mem_of_le h.count (Multiset.mem_cons_of_mem ?_))
    rw [addrs_plug, addrs_node, Multiset.mem_add, Multiset.mem_add, Multiset.mem_singleton, hroot]
    rcases List.mem_cons.mp (List.getLast_mem (List.cons_ne_nil a up.nodes)) with hlast | hlast
    · exact .inl (.inl hlast)
    · exact .inr (up.nodes_subset _ hlast)
  have hold : t.root ∉ s'.tree.rcu := fun hrcu => hs.done.books.clean _ hrcu hlive
  show t.root ∈ s'.freeStack ++ s'.tree.rcu ↔ _
  rw [List.mem_append, or_iff_left hold, hs.freed]
  show t.root ∈ _ ++ [] ↔ _
  rw [List.append_nil, List.mem_reverse, hroot, getLast_mem_take _ hnodup]
  have hle : fullRun c t.mem up.nodes ≤ up.nodes.length := fullRun_le _
  show (a :: up.nodes).length ≤ fullRun c t.mem up.nodes + 1 ↔ _
  rw [List.length_cons]
  omega

theorem smoInsert_of_done {u : Unit} (heven : t.smoSeq % 2 = 0)
    (h : Call.smoInsert c supply fuel (key, value) t.begin = some (some u, s')) :
    t.smoInsert c supply fuel (key, value) = some (true, s'.finish true) := by
  rw [Tree.smoInsert, if_neg (by omega)]
  rw [Tree.begin] at h
  rw [h]

theorem smoInsert_of_failed (heven : t.smoSeq % 2 = 0)
    (h : Call.smoInsert c supply fuel (key, value) t.begin = some (none, s')) :
    t.smoInsert c supply fuel (key, value) = some (false, s'.finish false) := by
  rw [Tree.smoInsert, if_neg (by omega)]
  rw [Tree.begin] at h
  rw [h]

theorem smoInsert_of_none (heven : t.smoSeq % 2 = 0)
    (h : Call.smoInsert c supply fuel (key, value) t.begin = none) :
    t.smoInsert c supply fuel (key, value) = none := by
  rw [Tree.smoInsert, if_neg (by omega)]
  rw [Tree.begin] at h
  rw [h]

/-- Without failing allocations a tree of small height takes the record. -/
theorem WellFormed.smoInsert_succeeds (h : WellFormed c S t T)
    (hT : T = plug up (node a (us ++ vs))) (hfresh : FreshSupply supply)
    (htotal : ∀ live, supply live ≠ none)
    (hcap : 2 * (c.recordSize + c.page.slotSize) ≤ c.page.bodySize)
    (hS : S (t.smoSeq + 1)) (hroom : room False (fun _ => True) up key)
    (hus : ∀ e ∈ us, e.1 < key) (hvs : ∀ e ∈ vs, key < e.1) (hsplit : Splittable us vs)
    (hwide : ∀ p ∈ up.nodes, ¬ (t.mem p).Fits c → 2 ≤ (t.mem p).entries.length)
    (hfuel : T.1 ≤ fuel) (hheight : T.1 ≤ 5) :
    ∃ s' T', t.smoInsert c supply fuel (key, value) = some (true, s'.finish true) ∧
      Succeeded c S supply (t.begin.pushLock a) up.nodes a (meant up a us vs key (data value))
        s' T' := by
  have hlen : up.length ≤ 4 := by
    rw [hT, height_plug] at hheight
    omega
  have hdepth : maxDepth = 16 := rfl
  have hwp : Wp (Call.smoInsert c supply fuel (key, value)) t.begin _ _ :=
    h.wp_smoInsert hT hfresh hcap hS hroom hus hvs hsplit hwide hfuel (by omega)
  rcases hwp.cases with ⟨u, s', hrun, T', hs⟩ | ⟨s', hrun, hf⟩
  · exact ⟨s', T', smoInsert_of_done h.even hrun, hs⟩
  · exfalso
    rcases hf.cause with hlocks | hnone
    · have hle : fullRun c (t.begin.pushLock a).tree.mem up.nodes ≤ up.nodes.length :=
        fullRun_le up.nodes
      rw [Path.length_nodes] at hle
      omega
    · obtain ⟨live, hlive⟩ := exists_failure hnone
      exact htotal live hlive

/-- Every key has a leaf. -/
theorem Stands.exists_leaf (h : Stands c S t T) (hheight : 0 < T.1)
    (hread : 1 < T.1 → Readable (mark t.mem) T.2) (key : α) :
    ∃ a es, ∃ up : Path α ℕ 1, T = plug up (node a es) ∧ room False (fun _ => True) up key := by
  obtain ⟨N, x⟩ := T
  obtain ⟨n, rfl⟩ := Nat.exists_eq_succ_of_ne_zero hheight.ne'
  have hall : room False (fun _ => True) (.top : Path α ℕ (n + 1)) key := trivial
  obtain ⟨a, es, up, hplug, hroom⟩ := exists_cursor .top h.order
    (fun hn => hread (show 1 < n + 1 by omega)) hall
  exact ⟨a, es, up, hplug.symm, hroom⟩

/-- A key that is not in the tree has a place in its leaf. -/
theorem WellFormed.exists_place (h : WellFormed c S t T) (habsent : ∀ v, (key, v) ∉ whole T) :
    ∃ a us vs, ∃ up : Path α ℕ 1, T = plug up (node a (us ++ vs)) ∧
      room False (fun _ => True) up key ∧ (∀ e ∈ us, e.1 < key) ∧ ∀ e ∈ vs, key < e.1 := by
  obtain ⟨a, es, up, hT, hroom⟩ := h.exists_leaf h.height h.readable key
  have hsorted := h.order
  rw [hT] at hsorted habsent
  have habsent' : ∀ e ∈ es, e.1 ≠ key := by
    rintro e he rfl
    refine habsent e.2 ?_
    rw [whole_plug, inner_node]
    have hmem : (e.1, e.2) ∈ es.flatMap contents :=
      List.mem_flatMap.mpr ⟨e, he, List.mem_singleton_self _⟩
    exact List.mem_append_left _ (List.mem_append_right _ hmem)
  obtain ⟨us, vs, rfl, hus, hvs⟩ := BTree.exists_place hsorted.hole.keys_sorted habsent'
  exact ⟨a, us, vs, up, hT, hroom, hus, hvs⟩

theorem whole_meant : whole (meant up a us vs key (data value)) =
    (up.before ++ us.flatMap contents) ++ (key, value) :: (vs.flatMap contents ++ up.after) := by
  rw [whole_plug, inner_node]
  simp

theorem whole_leaf : whole (plug up (node a (us ++ vs))) =
    (up.before ++ us.flatMap contents) ++ (vs.flatMap contents ++ up.after) := by
  rw [whole_plug, inner_node]
  simp

/-- Leaves have an entry, and the nodes above them have two. -/
def Wide : {n : ℕ} → Node α ℕ n → Prop
  | 0, _ => True
  | 1, (_, es) => 1 ≤ es.length
  | _ + 2, (_, es) => 2 ≤ es.length ∧ ∀ e ∈ es, Wide e.2

theorem Wide.hole {n : ℕ} {path : Path α ℕ n} {x : Node α ℕ n} (h : Wide (plug path x).2) :
    Wide x := by
  induction path with
  | top => exact h
  | @step n a pre k post up ih =>
    cases n with
    | zero => trivial
    | succ n => exact (ih h).2 (k, x) (by simp)

theorem Wide.nodes {n p : ℕ} {mem : ℕ → Page α} {path : Path α ℕ n} {x : Node α ℕ n}
    (h : Wide (plug path x).2) (hn : n ≠ 0) (hl : LinkedPath (Holds c S mem) path p) :
    ∀ q ∈ path.nodes, 2 ≤ (mem q).entries.length := by
  induction path generalizing p with
  | top => simp [Path.nodes, Path.positions]
  | @step n a pre k post up ih =>
    obtain ⟨hpage, -, -, hup⟩ := hl
    obtain ⟨n, rfl⟩ := Nat.exists_eq_succ_of_ne_zero hn
    have hplug : Wide (plug up (node a (pre ++ (k, x) :: post))).2 := h
    have htwo : 2 ≤ (pre ++ (k, x) :: post).length := hplug.hole.1
    show ∀ q ∈ a :: up.nodes, _
    rw [List.forall_mem_cons]
    refine ⟨?_, ih h (by omega) hup⟩
    rw [hpage.entries]
    simpa using htwo

/-- `split_insert` adds one record and keeps the order. The height grows just if the root is one of
the split pages, which go to the RCU. -/
theorem smoInsert_adds_record (h : WellFormed c (fun _ => True) t T) (hheight : T.1 ≤ 5)
    (hwide : Wide T.2)
    (htarget : ∀ (up : Path α ℕ 1) (a : ℕ) (es : List (α × Node α ℕ 0)),
      T = plug up (node a es) → room False (fun _ => True) up key → 2 ≤ es.length)
    (habsent : ∀ v, (key, v) ∉ whole T) (hfresh : FreshSupply supply)
    (htotal : ∀ live, supply live ≠ none)
    (hcap : 4 * (c.recordSize + c.page.slotSize) ≤ c.page.bodySize) (hfuel : T.1 ≤ fuel) :
    ∃ t' T' l₁ l₂, t.smoInsert c supply fuel (key, value) = some (true, t') ∧
      WellFormed c (fun _ => True) t' T' ∧ whole T = l₁ ++ l₂ ∧
      whole T' = l₁ ++ (key, value) :: l₂ ∧ Sorted (whole T') ∧
      T'.1 = T.1 + if t.root ∈ t'.rcu then 1 else 0 := by
  obtain ⟨a, us, vs, up, hT, hroom, hus, hvs⟩ := h.exists_place habsent
  have htwo := htarget up a _ hT hroom
  have hsplit : Splittable us vs :=
    ⟨fun hnil => by simp [hnil] at htwo, fun hone => by omega⟩
  have hinner : ∀ p ∈ up.nodes, ¬ (t.mem p).Fits c → 2 ≤ (t.mem p).entries.length := by
    have hlinked := h.linked
    rw [hT] at hwide hlinked
    exact fun p hp _ => hwide.nodes (by omega) (linked_plug.mp hlinked).2 p hp
  obtain ⟨s', T', hrun, hs⟩ : ∃ s' T', t.smoInsert c supply fuel (key, value) =
      some (true, s'.finish true) ∧ Succeeded c (fun _ => True) supply (t.begin.pushLock a)
        up.nodes a (meant up a us vs key (data value)) s' T' :=
    h.smoInsert_succeeds hT hfresh htotal (by omega) trivial hroom hus hvs hsplit hinner hfuel
      hheight
  have hwhole := hs.whole
  rw [whole_meant] at hwhole
  have hheight' : T'.1 = T.1 + if t.root ∈ (s'.finish true).rcu then 1 else 0 := by
    rw [hs.height, if_congr (hs.root_mem h hT) rfl rfl, hT, height_plug, height_plug]
    rfl
  have hpos : 0 < T'.1 := by
    have := h.height
    omega
  have hodd : s'.tree.smoSeq % 2 = 1 := by
    have heven := h.even
    rw [hs.smoSeq]
    show (t.smoSeq + 1) % 2 = 1
    omega
  refine ⟨_, T', _, _, hrun, hs.done.wellFormed hpos hodd, hT ▸ whole_leaf, hwhole, ?_, hheight'⟩
  obtain ⟨N, x⟩ := T'
  obtain ⟨n, rfl⟩ := Nat.exists_eq_succ_of_ne_zero hpos.ne'
  exact hs.done.order.sorted

section Example

/-- Pages with space for four records. -/
def fourRecords : Config := ⟨⟨2, 32, 120, by decide, by decide, by decide, by decide⟩, 16⟩

/-- Two records in one leaf. -/
def twoRecords : Tree ℕ where
  mem := Function.update (fun _ => Tree.blankPage 0 true) 1
    (filled fourRecords true 0 [(1, 10), (3, 30)])
  root := 1
  smoSeq := 0
  live := {0, 1}
  rcu := []
  locked := ∅

theorem twoRecords_wellFormed :
    WellFormed fourRecords (fun _ => True) twoRecords ⟨1, node 1 [(1, data 10), (3, data 30)]⟩ := by
  have hmem : twoRecords.mem 1 = filled fourRecords (decide (0 = 0)) 0 [(1, 10), (3, 30)] := by
    simp [twoRecords]
  have hpage : Holds fourRecords (fun _ => True) twoRecords.mem 0 1 [(1, 10), (3, 30)] :=
    holds_filled (fun _ => trivial) (by decide) hmem
  have hmark : mark twoRecords.mem 1 = none := by
    refine mark_of_ne ?_
    rw [hpage.entries]
    simp
  refine ⟨⟨rfl, linked_node.mpr ⟨hpage, fun _ _ => trivial⟩, ordered_leaf.mpr ⟨?_, ?_, ?_⟩, ?_⟩,
    by decide, fun h => absurd h (by decide), by simp [twoRecords], by simp [twoRecords], rfl, rfl,
    by decide⟩
  · simp
  · simp
  · simp
  · decide

theorem twoRecords_takes_third : ∃ t' T' l₁ l₂,
    twoRecords.smoInsert fourRecords endless 5 (2, 20) = some (true, t') ∧
      WellFormed fourRecords (fun _ => True) t' T' ∧ [(1, 10), (3, 30)] = l₁ ++ l₂ ∧
      whole T' = l₁ ++ (2, 20) :: l₂ ∧ Sorted (whole T') ∧
      T'.1 = 1 + if twoRecords.root ∈ t'.rcu then 1 else 0 := by
  refine smoInsert_adds_record twoRecords_wellFormed (by decide) (show 1 ≤ 2 by decide) ?_ ?_
    freshSupply_endless total_endless (by decide) (by decide)
  · intro up a es hT _
    cases up with
    | top =>
      cases hT
      exact le_rfl
    | step p pre k post up =>
      have hheight := congrArg Sigma.fst hT
      rw [height_plug, Path.length] at hheight
      simp only at hheight
      omega
  · intro v
    show (2, v) ∉ [(1, 10), (3, 30)]
    simp

end Example

end YwStorage.BTree

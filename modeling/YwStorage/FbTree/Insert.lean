import YwStorage.FbTree.Search

/-! Insertion into a leaf that has a free slot, and into the empty tree. -/
namespace YwStorage.FbTree
open MultiTree SortedMap

variable {alloc : Finset ℕ → ℕ} {s : Fb} {R : Multiset ℕ} {n a c d i k p key : ℕ}
  {T : Σ N, Node ℕ ℕ N}

/-- The operation has finished: nothing is left to free. -/
structure Inv (s : Fb) (T : Σ N, Node ℕ ℕ N) : Prop where
  shape : Shape s 0 T
  order : Ordered True unmarked IsKey T.2
  free : s.freeNode = []

/-- The same without the search order. -/
structure Sound (s : Fb) (T : Σ N, Node ℕ ℕ N) : Prop where
  shape : Shape s 0 T
  keys : AllKeys IsKey T.2
  free : s.freeNode = []

theorem Inv.sound (h : Inv s T) : Sound s T := ⟨h.shape, h.order.allKeys, h.free⟩

theorem Sound.nil_live (h : Sound s T) : fbNilNode ∈ s.live :=
  Multiset.mem_of_le h.shape.count (Multiset.mem_cons_self _ _)

theorem Sound.inv (h : Sound s T) (ho : Ordered True unmarked IsKey T.2) : Inv s T :=
  ⟨h.shape, ho, h.free⟩

/-- The nodes in use that are neither in the tree nor about to be freed. -/
def lost (s : Fb) (T : Σ N, Node ℕ ℕ N) : ℤ :=
  s.live.card - s.freeNode.length - Multiset.card (addrs T.2)

theorem lost_plug {path : Path ℕ ℕ n} {t : Node ℕ ℕ n} : lost s (plug path t) =
    s.live.card - s.freeNode.length - (Multiset.card (addrs t) + Multiset.card path.addrs) := by
  rw [lost, addrs_plug, Multiset.card_add, Nat.cast_add]

/-- The nodes to free are different nodes in use. -/
theorem Shape.freeNode_ok (h : Shape s R T) :
    s.freeNode.Nodup ∧ ∀ b ∈ s.freeNode, b ∈ s.live := by
  obtain ⟨-, hd⟩ := Multiset.nodup_cons.mp h.nodup
  refine ⟨(Multiset.nodup_add.mp hd).2.1, fun b hb => Multiset.mem_of_le h.count ?_⟩
  simp [hb]

/-- Freeing nodes that are not part of the tree. -/
theorem commit_sound (h : Shape s 0 T) (hk : AllKeys IsKey T.2) :
    ∃ s', s.commit = some s' ∧ Sound s' T ∧ lost s' T = lost s T := by
  obtain ⟨hnil, hd⟩ := Multiset.nodup_cons.mp h.nodup
  obtain ⟨hdt, -, hdisj⟩ := Multiset.nodup_add.mp hd
  obtain ⟨hnodup, hlive⟩ := h.freeNode_ok
  have hsub : s.freeNode.toFinset ⊆ s.live := fun b hb => hlive b (List.mem_toFinset.mp hb)
  refine ⟨{ s with live := s.live \ s.freeNode.toFinset, freeNode := [] }, ?_, ⟨⟨h.root, h.level,
    h.linked, ?_⟩, hk, rfl⟩, ?_⟩
  · simp [Fb.commit, hnodup]
  · simp only [zero_add, Multiset.coe_nil, add_zero] at hnil hdt hdisj ⊢
    refine (Multiset.le_iff_subset (Multiset.nodup_cons.mpr ⟨?_, hdt⟩)).mpr fun b hb => ?_
    · exact fun hb => hnil (Multiset.mem_add.mpr (Or.inl hb))
    · have hlive : b ∈ s.live := by
        refine Multiset.mem_of_le h.count ?_
        rw [zero_add, ← Multiset.cons_add]
        exact Multiset.mem_add.mpr (Or.inl hb)
      refine Finset.mem_sdiff.mpr ⟨hlive, fun hf => ?_⟩
      rw [List.mem_toFinset] at hf
      rcases Multiset.mem_cons.mp hb with rfl | hb
      · exact hnil (Multiset.mem_add.mpr (Or.inr hf))
      · exact Multiset.disjoint_left.mp hdisj hb hf
  · have hcard := Finset.card_sdiff_add_card_eq_card hsub
    rw [List.toFinset_card_of_nodup hnodup] at hcard
    simp only [lost, List.length_nil]
    omega

theorem cloningAndInsert_eq (ha : a ≠ fbNilNode) (hi : i + 1 < 128) :
    s.cloningAndInsert alloc a i key c = some (alloc s.live,
      ({ s with live := insert (alloc s.live) s.live } : Fb).write (alloc s.live)
        (insertSlot (s.mem a) (s.mem (alloc s.live)) (i + 1) key c)) := by
  simp [Fb.cloningAndInsert, Fb.createNode, ha, hi]
  rfl

/-- The clone of a leaf with one more entry takes the place of the leaf. -/
theorem leaf_insert {pre post : List (ℕ × Node ℕ ℕ 0)} {up : Path ℕ ℕ 1} (d : ℕ)
    (hfresh : alloc s.live ∉ s.live) (h : Sound s (plug (.step a pre k post up) (data p)))
    (hkey : IsKey key) (hlen : pre.length + post.length + 1 < 128) :
    ∃ b s₁ s₂ s', s.cloningAndInsert alloc a pre.length key d = some (b, s₁) ∧
      s₁.replaceChild up.positions a b = some s₂ ∧ s₂.commit = some s' ∧
      Sound s' (plug (.step b (pre ++ [(k, data p)]) key post up) (data d)) ∧
      lost s' (plug (.step b (pre ++ [(k, data p)]) key post up) (data d)) =
        lost s (plug (.step a pre k post up) (data p)) := by
  have hs : Shape s 0 (plug up (node a (pre ++ (k, data p) :: post))) := h.shape
  have ha : a ∈ addrs (plug up (node a (pre ++ (k, data p) :: post))).2 := by
    rw [addrs_plug, addrs_node]
    simp
  obtain ⟨haround, ⟨⟨hf, -⟩, -⟩, hc⟩ := shape_plug.mp hs
  have hfit : Fits (insertSlot (s.mem a) (s.mem (alloc s.live)) (pre.length + 1) key d)
      (words (pre ++ (k, data p) :: (key, data d) :: post)) := by
    have hf' : Fits (s.mem a) ((words pre ++ [(k, p)]) ++ words post) := by simpa using hf
    have := hf'.insert (s.mem (alloc s.live)) key d (by simp; omega)
    simpa using this
  obtain ⟨s₂, hrep, hs₂, hfree₂, hlive₂⟩ := haround.renew (R := 0) hfresh (by simp [h.free]) hfit
    (by simp) (fun e _ => trivial) (by simpa [addrs_node] using hc)
  have hk₂ : AllKeys IsKey
      (plug up (node (alloc s.live) (pre ++ (k, data p) :: (key, data d) :: post))).2 := by
    have hkeys : AllKeys IsKey (plug up (node a (pre ++ (k, data p) :: post))).2 := h.keys
    obtain ⟨hnode, hup⟩ := allKeys_plug.mp hkeys
    rw [allKeys_node, List.forall_mem_append, List.forall_mem_cons] at hnode
    refine allKeys_plug.mpr ⟨?_, hup⟩
    rw [allKeys_node, List.forall_mem_append, List.forall_mem_cons, List.forall_mem_cons]
    exact ⟨hnode.1, hnode.2.1, ⟨hkey, trivial⟩, hnode.2.2⟩
  obtain ⟨s', hcommit, hsound, hlost⟩ := commit_sound hs₂ hk₂
  have htree : plug (.step (alloc s.live) (pre ++ [(k, data p)]) key post up) (data d) =
      plug up (node (alloc s.live) (pre ++ (k, data p) :: (key, data d) :: post)) := by simp
  refine ⟨_, _, s₂, s', cloningAndInsert_eq (hs.ne_nil ha) (by omega), hrep, hcommit, ?_, ?_⟩
  · rw [htree]
    exact hsound
  · rw [htree, hlost, plug_step, lost_plug, lost_plug, hfree₂, hlive₂,
      Finset.card_insert_of_notMem hfresh]
    simp only [addrs_node, addrsOf_append, addrsOf_cons, addrs_data, Multiset.card_add,
      Multiset.card_zero, Multiset.card_singleton, List.length_append, List.length_singleton]
    push_cast
    omega

/-- A key that has room behind the cursor may stand there. -/
theorem ordered_insert {pre post : List (ℕ × Node ℕ ℕ 0)} {up : Path ℕ ℕ 1} (b d : ℕ)
    (ho : Ordered True unmarked IsKey (plug (.step a pre k post up) (data p)).2)
    (hr : room True IsKey (.step a pre k post up) key) (hne : k ≠ key) :
    Ordered True unmarked IsKey
      (plug (.step b (pre ++ [(k, data p)]) key post up) (data d)).2 := by
  have hup : Ordered True unmarked IsKey (plug up (node a (pre ++ (k, data p) :: post))).2 := ho
  have hkey : k < key := lt_of_le_of_ne (hr.lower (Or.inl trivial)) hne
  have hjoin : Ordered True unmarked IsKey
      (plug up (node b (pre ++ (k, data p) :: (key, data d) :: post))).2 :=
    hup.replug (fun _ _ => rfl) ((hup.hole.join hkey (hup.hole.region_self (Or.inl trivial)) hr
      trivial trivial).rename markIn_unmarked)
  rwa [plug_step, List.append_assoc]

/-- A new root over trees that are ready in the memory. -/
theorem makeNewRoot_spec {es : List (ℕ × Node ℕ ℕ n)} {k₁ c₁ k₂ c₂ : ℕ}
    (hfresh : alloc s.live ∉ s.live) (hlevel : s.level = n)
    (hfit : Fits (rootSlots (s.mem (alloc s.live)) k₁ c₁ k₂ c₂) (words es)) (hne : es ≠ [])
    (hes : ∀ e ∈ es, Linked (Holds s) e.2)
    (hc : fbNilNode ::ₘ (R + addrsOf es + s.freeNode) ≤ s.live.val) :
    ∃ b s', s.makeNewRoot alloc k₁ c₁ k₂ c₂ = some (b, s') ∧ Shape s' R ⟨n + 1, node b es⟩ ∧
      s'.freeNode = s.freeNode ∧ s'.live.card = s.live.card + 1 ∧
      ∀ x ∈ R, s'.mem x = s.mem x := by
  have hin : ∀ x ∈ R + addrsOf es, x ≠ alloc s.live := fun x hx he =>
    hfresh (he ▸ Multiset.mem_of_le hc
      (Multiset.mem_cons_of_mem (Multiset.mem_add.mpr (Or.inl hx))))
  refine ⟨alloc s.live, ⟨Function.update s.mem (alloc s.live)
      (rootSlots (s.mem (alloc s.live)) k₁ c₁ k₂ c₂), alloc s.live, s.level + 1,
      insert (alloc s.live) s.live, s.freeNode⟩, ?_,
    ⟨rfl, by rw [hlevel], ⟨⟨?_, ?_⟩, ?_⟩, ?_⟩, rfl, Finset.card_insert_of_notMem hfresh, ?_⟩
  · simp [Fb.makeNewRoot, Fb.createNode, Fb.changeRoot, Fb.write, rootSlots]
  · simpa using hfit
  · simpa [words] using hne
  · refine fun e he => linked_congr (hes e he) fun x hx => ?_
    have := hin x (Multiset.mem_add.mpr (Or.inr (Multiset.mem_of_le (addrs_le_addrsOf he) hx)))
    simp [this]
  · rw [Finset.insert_val_of_notMem hfresh, addrs_node]
    refine le_trans (le_of_eq ?_) (Multiset.cons_le_cons (alloc s.live) hc)
    simp only [← Multiset.singleton_add]
    abel
  · intro x hx
    simp [hin x (Multiset.mem_add.mpr (Or.inl hx))]

end YwStorage.FbTree

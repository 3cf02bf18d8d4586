import YwStorage.FbTree.Update

/-! The whole of `fb_remove`: nodes that lose their last entry are freed up to the root. -/
namespace YwStorage.FbTree
open MultiTree SortedMap

variable {alloc : Finset ℕ → ℕ} {s s' : Fb} {n a i k p key : ℕ} {T : Σ N, Node ℕ ℕ N}
  {r : FbResult}

theorem cloningAndRemove_eq (ha : a ≠ fbNilNode) (hi : i < 128) :
    s.cloningAndRemove alloc a i = some (alloc s.live,
      ({ s with live := insert (alloc s.live) s.live } : Fb).write (alloc s.live)
        (removeSlot (s.mem a) (s.mem (alloc s.live)) i)) := by
  simp [Fb.cloningAndRemove, Fb.createNode, ha, hi]
  rfl

section Node
variable {pre post : List (ℕ × Node ℕ ℕ n)} {up : Path ℕ ℕ (n + 1)} {t : Node ℕ ℕ n}

theorem path_words_lt (hk : (Path.step a pre k post up).allKeys IsKey) :
    ∀ w ∈ words pre ++ (k, p) :: words post, w.1 < fbNilKey := by
  have hwords : ∀ es : List (ℕ × Node ℕ ℕ n), (∀ e ∈ es, IsKey e.1 ∧ AllKeys IsKey e.2) →
      ∀ w ∈ words es, w.1 < fbNilKey := by
    intro es hes w hw
    obtain ⟨e, he, rfl⟩ := List.mem_map.mp hw
    exact (hes e he).1
  rw [List.forall_mem_append, List.forall_mem_cons]
  exact ⟨hwords pre hk.1, hk.2.1, hwords post hk.2.2.1⟩

theorem remainOne_iff_width (h : Around s (.step a pre k post up) p)
    (hk : (Path.step a pre k post up).allKeys IsKey) :
    (s.mem a).remainOneKey ↔ pre.length + post.length = 0 := by
  rw [h.linked.1.1.remainOne_iff (path_words_lt hk) (by simp)]
  simp only [List.length_append, List.length_cons, length_words]
  omega

/-- The clone of a node with one entry less takes the place of the node. -/
theorem node_remove (hfresh : alloc s.live ∉ s.live) (h : Around s (.step a pre k post up) p)
    (hk : (Path.step a pre k post up).allKeys IsKey) (hmore : pre.length + post.length ≠ 0)
    (hc : fbNilNode ::ₘ ((Path.step a pre k post up).addrs + s.freeNode) ≤ s.live.val)
    (hfree : s.freeNode.length < 8) :
    ∃ b s₁ s₂ s', s.cloningAndRemove alloc a pre.length = some (b, s₁) ∧
      s₁.replaceChild up.positions a b = some s₂ ∧ s₂.commit = some s' ∧ b = alloc s.live ∧
      Sound s' (plug up (node b (pre ++ post))) ∧ lost s' (plug up (node b (pre ++ post))) =
        s.live.card - s.freeNode.length - Multiset.card (Path.step a pre k post up).addrs := by
  have hnil : a ≠ fbNilNode := by
    rintro rfl
    have := Multiset.nodup_of_le hc s.live.nodup
    simp [Path.addrs] at this
  have hes : pre ++ post ≠ [] := by
    rw [Ne, ← List.length_eq_zero_iff, List.length_append]
    exact hmore
  have hw := width_le h
  have hfit : Fits (removeSlot (s.mem a) (s.mem (alloc s.live)) pre.length)
      (words (pre ++ post)) := by
    have := h.linked.1.1.remove (s.mem (alloc s.live))
    simpa using this
  obtain ⟨s₂, hrep, hshape, hfree₂, hlive₂⟩ := h.parent.renew (R := 0) hfresh hfree
    hfit hes (List.forall_mem_append.mpr ⟨h.linked.2.1, h.linked.2.2.1⟩) (by
      refine le_trans (le_of_eq ?_) hc
      rw [Path.addrs, addrsOf_append]
      congr 1
      abel)
  have hkeys : AllKeys IsKey (plug up (node (alloc s.live) (pre ++ post))).2 :=
    allKeys_plug.mpr ⟨List.forall_mem_append.mpr ⟨hk.1, hk.2.2.1⟩, hk.2.2.2⟩
  obtain ⟨s', hcommit, hsound, hlost⟩ := commit_sound hshape hkeys
  refine ⟨_, _, s₂, s', cloningAndRemove_eq hnil (show pre.length < 128 by omega), hrep, hcommit,
    rfl, hsound, ?_⟩
  rw [hlost, lost_plug, hfree₂, hlive₂, Finset.card_insert_of_notMem hfresh]
  simp only [addrs_node, addrsOf_append, Path.addrs, Multiset.card_add,
    Multiset.card_singleton, List.length_append, List.length_singleton]
  push_cast
  omega

/-- The hole of the path and the nodes that only lead to it disappear. -/
theorem removeLoop_tree (hfresh : ∀ live, alloc live ∉ live) (path : Path ℕ ℕ n)
    (hpath : path ≠ .top) (h : Around s path p) (hk : path.allKeys IsKey)
    (hc : fbNilNode ::ₘ (path.addrs + s.freeNode) ≤ s.live.val)
    (hfree : s.freeNode.length + path.length ≤ 8) :
    ∃ s', removeLoop alloc true s path.positions = some s' ∧
      Sound s' (prune fbNilNode (alloc s.live) path) ∧
      lost s' (prune fbNilNode (alloc s.live) path) =
        s.live.card - s.freeNode.length - Multiset.card path.addrs := by
  induction path generalizing s p with
  | top => exact absurd rfl hpath
  | @step n a pre k post up ih =>
    have hlive : a ∈ s.live := Multiset.mem_of_le hc (by simp [Path.addrs])
    rw [Path.length] at hfree
    have hlt : s.freeNode.length < fbStackSize := show s.freeNode.length < 8 by omega
    have hones := remainOne_iff_width h hk
    by_cases hone : (s.mem a).remainOneKey
    · have hnone := hones.mp hone
      rw [prune_none hnone]
      obtain ⟨rfl, rfl⟩ := nil_of_no_entries hnone
      have hpush : s.pushFreeNode a = some { s with freeNode := s.freeNode ++ [a] } := by
        simp [Fb.pushFreeNode, hlive, hlt]
      have hc' : fbNilNode ::ₘ (up.addrs + (s.freeNode ++ [a] : List ℕ)) ≤ s.live.val := by
        refine le_trans (le_of_eq ?_) hc
        rw [Path.addrs, ← Multiset.coe_add, Multiset.coe_singleton, addrsOf_nil]
        congr 1
        abel
      have hcard : ((s.freeNode ++ [a]).length : ℤ) + Multiset.card up.addrs =
          s.freeNode.length + Multiset.card (Path.step a [] k [] up).addrs := by
        simp only [Path.addrs, addrsOf_nil, Multiset.card_add, Multiset.card_singleton,
          Multiset.card_zero, List.length_append, List.length_singleton]
        push_cast
        omega
      cases up with
      | top =>
        have hshape : Shape ⟨s.mem, fbNilNode, 0, s.live, s.freeNode ++ [a]⟩ 0
            ⟨0, data fbNilNode⟩ := ⟨rfl, rfl, trivial, by simpa [Path.addrs] using hc'⟩
        obtain ⟨s', hcommit, hsound, hlost⟩ := commit_sound hshape trivial
        refine ⟨s', ?_, hsound, ?_⟩
        · simp [Path.positions, removeLoop, hone, hpush, Fb.changeRoot, hcommit]
        · rw [prune, hlost, lost, addrs_data, Multiset.card_zero]
          simp only [Path.addrs, Multiset.card_zero] at hcard ⊢
          omega
      | step a' pre' k' post' up' =>
        have haround : Around { s with freeNode := s.freeNode ++ [a] }
            (.step a' pre' k' post' up') a := h.parent.congr rfl rfl fun _ _ => rfl
        obtain ⟨s', hloop, hsound, hlost⟩ := ih (by simp) haround hk.2.2.2 hc' (by
          rw [List.length_append, List.length_singleton]
          omega)
        refine ⟨s', ?_, hsound, ?_⟩
        · rw [Path.positions] at hloop
          rw [Path.positions, Path.positions, removeLoop]
          simpa [hone, hpush] using hloop
        · rw [hlost]
          dsimp only
          omega
    · have hmore : ¬ pre.length + post.length = 0 := fun he => hone (hones.mpr he)
      obtain ⟨b, s₁, s₂, s', hclone, hrep, hcommit, rfl, hsound, hlost⟩ :=
        node_remove (hfresh _) h hk hmore hc hlt
      rw [prune_some hmore]
      refine ⟨s', ?_, hsound, hlost⟩
      rw [Path.positions, removeLoop]
      simp [hone, hclone, hrep, hcommit]

end Node

theorem commit_of_nil (h : s.freeNode = []) : s.commit = some s := by
  obtain ⟨mem, root, level, live, freeNode⟩ := s
  cases h
  simp [Fb.commit]

theorem fbRemove_of_try (hlock : fbRemoveTry alloc s key false = some (.smo, s) ∨
      fbRemoveTry alloc s key false = fbRemoveTry alloc s key true)
    (h : fbRemoveTry alloc s key true = some (r, s')) (hsmo : r ≠ .smo) (hretry : r ≠ .retry) :
    fbRemove alloc s key = some (decide (r = .success), s') :=
  retryLoop_unlocked (fun s smoLock => fbRemoveTry alloc s key smoLock) 1 hlock h hsmo hretry

theorem fbRemove_empty (hlevel : s.level = 0) : fbRemove alloc s key = some (false, s) := by
  have hfail : fbRemoveTry alloc s key true = some (.fail, s) := by simp [fbRemoveTry, hlevel]
  have hlock : fbRemoveTry alloc s key false = some (.smo, s) := by simp [fbRemoveTry, hlevel]
  exact fbRemove_of_try (.inl hlock) hfail (by simp) (by simp)

section Leaf
variable {pre post : List (ℕ × Node ℕ ℕ 0)} {up : Path ℕ ℕ 1}
  (h : Sound s (plug (.step a pre k post up) (data p)))
  (ht : fbTraverse s key = ((a, pre.length) :: up.positions, p))
include h ht

theorem fbRemoveTry_absent (hkey : k ≠ key) : fbRemoveTry alloc s key true = some (.fail, s) := by
  simp [fbRemoveTry, level_ne_zero h, ht, key_at_cursor h, hkey]

theorem fbRemoveTry_lock : fbRemoveTry alloc s key false = some (.smo, s) ∨
    fbRemoveTry alloc s key false = fbRemoveTry alloc s key true := by
  by_cases hlevel : s.level ≤ 1
  · left
    simp [fbRemoveTry, hlevel]
  by_cases hkey : k = key
  · by_cases hone : (s.mem a).remainOneKey
    · by_cases hnil : a = fbNilNode
      · right
        simp [fbRemoveTry, level_ne_zero h, hlevel, ht, hnil]
      · left
        simp [fbRemoveTry, level_ne_zero h, hlevel, ht, key_at_cursor h, hkey, hone, hnil,
          commit_of_nil h.free]
    · right
      simp [fbRemoveTry, level_ne_zero h, hlevel, ht, key_at_cursor h, hkey, hone,
        smoCheck_cursor h, removeLoop]
  · right
    simp [fbRemoveTry, level_ne_zero h, hlevel, ht, key_at_cursor h, hkey]

theorem fbRemoveTry_present (hfresh : ∀ live, alloc live ∉ live) (hkey : k = key)
    (hlevel : s.level ≤ 8) :
    ∃ s', fbRemoveTry alloc s key true = some (.success, s') ∧
      Sound s' (prune fbNilNode (alloc s.live) (.step a pre k post up)) ∧
      lost s' (prune fbNilNode (alloc s.live) (.step a pre k post up)) =
        lost s (plug (.step a pre k post up) (data p)) := by
  obtain ⟨haround, -, hc⟩ := shape_plug.mp h.shape
  have hlen := haround.level
  have hnil : a ≠ fbNilNode := h.shape.ne_nil (by simp [addrs_plug, addrs_node])
  obtain ⟨s', hloop, hsound, hlost⟩ := removeLoop_tree hfresh (.step a pre k post up) (by simp)
    haround (allKeys_plug.mp h.keys).2 (by simpa using hc) (by
      rw [h.free, List.length_nil]
      omega)
  refine ⟨s', ?_, hsound, ?_⟩
  · rw [Path.positions] at hloop
    simp [fbRemoveTry, level_ne_zero h, ht, key_at_cursor h, hkey, hnil, hloop]
  · rw [hlost, lost_plug, addrs_data, Multiset.card_zero]
    simp

theorem fbRemove_absent (hkey : k ≠ key) : fbRemove alloc s key = some (false, s) :=
  fbRemove_of_try (fbRemoveTry_lock h ht) (fbRemoveTry_absent h ht hkey) (by simp) (by simp)

theorem fbRemove_present (hfresh : ∀ live, alloc live ∉ live) (hkey : k = key)
    (hlevel : s.level ≤ 8) :
    ∃ s', fbRemove alloc s key = some (true, s') ∧
      Sound s' (prune fbNilNode (alloc s.live) (.step a pre k post up)) := by
  obtain ⟨s', htry, hsound, -⟩ := fbRemoveTry_present h ht hfresh hkey hlevel
  exact ⟨s', fbRemove_of_try (fbRemoveTry_lock h ht) htry (by simp) (by simp), hsound⟩

end Leaf

/-- The cursor is at the key if the tree has it. -/
theorem absent_of_cursor {pre post : List (ℕ × Node ℕ ℕ 0)} {up : Path ℕ ℕ 1}
    (ho : Ordered True unmarked IsKey (plug (.step a pre k post up) (data p)).2)
    (hr : room False IsKey (.step a pre k post up) key) (hkey : k ≠ key) (d : ℕ) :
    (key, d) ∉ whole (plug (.step a pre k post up) (data p)) := by
  obtain ⟨hbefore, hafter⟩ := ho.between hr
  rw [whole_cursor, List.mem_append, List.mem_cons]
  rintro (hd | hd | hd)
  · exact lt_irrefl _ (hbefore _ hd)
  · exact hkey (congrArg Prod.fst hd).symm
  · exact lt_irrefl _ (hafter _ hd)

theorem fbRemove_spec (hfresh : ∀ live, alloc live ∉ live) (h : Inv s T) (hk : IsKey key)
    (hlevel : s.level ≤ 8) :
    ∃ b s' T', fbRemove alloc s key = some (b, s') ∧ Inv s' T' ∧
      RemoveResult (whole T) (whole T') key b := by
  obtain ⟨path, p, rfl, hr, ht⟩ := fbTraverse_spec h.shape h.order hk
  cases path with
  | top => exact ⟨false, s, _, fbRemove_empty h.shape.level, h, Or.inl ⟨rfl, rfl, by simp [whole]⟩⟩
  | step a pre k post up =>
    rw [Path.positions] at ht
    by_cases hkey : k = key
    · obtain ⟨s', hremove, hsound⟩ := fbRemove_present h.sound ht hfresh hkey hlevel
      refine ⟨true, s', _, hremove, hsound.inv h.order.prune,
        Or.inr ⟨rfl, p, _, _, ?_, whole_prune⟩⟩
      rw [whole_cursor, hkey]
    · exact ⟨false, s, _, fbRemove_absent h.sound ht hkey, h,
        Or.inl ⟨rfl, rfl, absent_of_cursor h.order hr hkey⟩⟩

/-- A search for a present key returns its data. -/
theorem fbFind_spec (h : Inv s T) (hk : IsKey key) {d : ℕ} (hd : (key, d) ∈ whole T) :
    fbFind s key = d := by
  obtain ⟨path, p, rfl, hr, ht⟩ := fbTraverse_spec h.shape h.order hk
  rw [fbFind_eq, ht]
  cases path with
  | top => simp [whole] at hd
  | step a pre k post up =>
    obtain ⟨hbefore, hafter⟩ := h.order.between hr
    rw [whole_cursor, List.mem_append, List.mem_cons] at hd
    rcases hd with hd | hd | hd
    · exact absurd (hbefore _ hd) (lt_irrefl _)
    · exact (congrArg Prod.snd hd).symm
    · exact absurd (hafter _ hd) (lt_irrefl _)

end YwStorage.FbTree

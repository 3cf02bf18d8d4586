import YwStorage.FbTree.Map
import YwStorage.Lib.Run

/-!
How a call notices that its stack is out of date. `fb_smo_check` compares the root and the words
below the root's children with the stack, but not the word that leads from the root to its child.
-/
namespace YwStorage.FbTree
open MultiTree SortedMap Supply

/-- The words of the tree lead along the stack from the root to `node`. -/
def OnPath (s : Fb) : List (ℕ × ℕ) → ℕ → Prop
  | [], node => s.root = node
  | (parent, idx) :: up, node => (s.mem parent).child idx = node ∧ OnPath s up parent

/-- An insertion or a removal of another thread that puts a clone in the place of the leaf `old`,
without the exclusive lock. The clone is not one of the nodes `held`, which an RCU reference keeps
from being used again. -/
def LeafReplaced (held : Finset ℕ) (s : Fb) (old : ℕ) (s' : Fb) : Prop :=
  ∃ (alloc : Finset ℕ → ℕ) (key : ℕ), IsKey key ∧ alloc s.live ∉ s.live ∧ alloc s.live ∉ held ∧
    (fbTraverse s key).1.head?.map Prod.fst = some old ∧
    ((∃ d, fbInsertTry alloc s key d false = some (.success, s')) ∨
      fbRemoveTry alloc s key false = some (.success, s'))

/-- What such a step does: a word of the node `parent` leads to a new node from now on. -/
structure Swapped (held : Finset ℕ) (s s' : Fb) (parent idx new : ℕ) : Prop where
  fresh : new ∉ s.live ∧ new ∉ held
  root : s'.root = s.root
  level : s'.level = s.level
  word : s'.mem parent = (s.mem parent).setChild idx new
  mem : ∀ a, a ≠ new → a ≠ parent → s'.mem a = s.mem a

variable {alloc : Finset ℕ → ℕ} {s s' s₁ s₂ : Fb} {T : Σ N, Node ℕ ℕ N} {held : Finset ℕ}
  {key d n a k p old parent idx new next leaf : ℕ} {up : List (ℕ × ℕ)} {xs : List ℕ}

theorem onPath_of_around {path : Path ℕ ℕ n} (h : Around s path p) :
    OnPath s path.positions p := by
  induction path generalizing p with
  | top => exact h.root
  | step a pre k post up ih => exact ⟨h.child_eq, ih h.parent⟩

/-- The check together with the word that it leaves out. -/
theorem onPath_of_smoCheck {node : ℕ} (h : OnPath s up node)
    (htop : s'.mem s.root = s.mem s.root) (hcheck : fbSmoCheck s' up node = false) :
    OnPath s' up node := by
  induction up generalizing node with
  | nil => simpa [fbSmoCheck, OnPath] using hcheck
  | cons pos up ih =>
    obtain ⟨parent, idx⟩ := pos
    obtain ⟨hword, hup⟩ := h
    rw [fbSmoCheck, Bool.or_eq_false_iff, decide_eq_false_iff_not] at hcheck
    refine ⟨?_, ih hup hcheck.2⟩
    cases up with
    | nil =>
      have hroot : s.root = parent := hup
      rw [← hroot, htop, hroot]
      exact hword
    | cons pos' up => exact not_not.mp fun hne => hcheck.1 ⟨by simp, hne⟩

theorem of_guard_bind {α : Type} {q : Prop} [Decidable q] {f : Unit → Option α} {x : α}
    (h : (guard q >>= f) = some x) : f () = some x := by
  by_cases hq : q
  · simpa [hq] using h
  · simp [hq] at h

/-- The end of a call that replaces a child of `parent`. -/
theorem swapped_of_commit {nd : FbNode} (hnew : new ∉ s.live) (hheld : new ∉ held)
    (hparent : parent ∈ s.live)
    (hrep : (({ s with live := insert new s.live } : Fb).write new nd).replaceChild
      ((parent, idx) :: up) old new = some s₂) (hcommit : s₂.commit = some s') :
    Swapped held s s' parent idx new := by
  have hne : parent ≠ new := fun he => hnew (he ▸ hparent)
  cases of_guard_bind (of_guard_bind (of_guard_bind hrep))
  cases of_guard_bind hcommit
  refine ⟨⟨hnew, hheld⟩, rfl, rfl, ?_, fun a ha hpa => ?_⟩
  · simp [Fb.write, hne]
  · simp [Fb.write, ha, hpa]

/-- A tree of at least two levels, seen from one of its leaves. -/
theorem exists_leaf (h : Sound s T) (hlevel : 2 ≤ s.level) (hk : IsKey key) :
    ∃ leaf pre k post parent pre₂ k₂ post₂, ∃ (up₂ : Path ℕ ℕ 2) (p : ℕ),
      T = plug (.step leaf pre k post (.step parent pre₂ k₂ post₂ up₂)) (data p) ∧
      fbTraverse s key =
        ((leaf, pre.length) :: (parent, pre₂.length) :: up₂.positions, p) := by
  obtain ⟨path, p, rfl, ht⟩ := fbTraverse_path h.shape hk
  have hlen := h.shape.around.level
  match path with
  | .top =>
    simp only [Path.length] at hlen
    omega
  | .step leaf pre k post .top =>
    simp only [Path.length] at hlen
    omega
  | .step leaf pre k post (.step parent pre₂ k₂ post₂ up₂) =>
    exact ⟨leaf, pre, k, post, parent, pre₂, k₂, post₂, up₂, p, rfl, ht⟩

section Leaf
variable {pre post : List (ℕ × Node ℕ ℕ 0)} {pre₂ post₂ : List (ℕ × Node ℕ ℕ 1)} {k₂ : ℕ}
  {up₂ : Path ℕ ℕ 2}
  (h : Sound s (plug (.step a pre k post (.step parent pre₂ k₂ post₂ up₂)) (data p)))
  (ht : fbTraverse s key = ((a, pre.length) :: (parent, pre₂.length) :: up₂.positions, p))
include h

theorem parent_live : parent ∈ s.live := h.shape.mem_live (by
  rw [addrs_plug]
  simp [Path.addrs])

theorem two_le_level : ¬ s.level ≤ 1 := by
  rw [h.shape.around.level, Path.length, Path.length]
  omega

include ht

/-- An insertion without the exclusive lock that succeeds has found room in the leaf. -/
theorem insert_swaps (hk : IsKey key) (hnew : alloc s.live ∉ s.live) (hheld : alloc s.live ∉ held)
    (hins : fbInsertTry alloc s key d false = some (.success, s')) :
    Swapped held s s' parent pre₂.length (alloc s.live) ∧ ∃ T', Sound s' T' := by
  have hts : fbTraverse s key =
      ((a, pre.length) :: (Path.step parent pre₂ k₂ post₂ up₂).positions, p) := ht
  by_cases hkey : k = key
  · simp [fbInsertTry, level_ne_zero h, two_le_level h, hts, key_at_cursor h, hkey] at hins
  by_cases hfull : (s.mem a).isFullNode
  · simp [fbInsertTry, level_ne_zero h, two_le_level h, hts, key_at_cursor h, hkey,
      smoCheck_cursor h, hfull] at hins
  have hwidth := mt (full_iff_width h.shape h.keys).mpr hfull
  have hle := width_le h.shape.around
  obtain ⟨b, s₁, s₂, s₃, hclone, hrep, hcommit, hsound, -⟩ :=
    leaf_insert d hnew h hk (by omega)
  have hnil : a ≠ fbNilNode := h.shape.ne_nil (by rw [addrs_plug]; simp [Path.addrs])
  rw [cloningAndInsert_eq hnil (by omega)] at hclone
  obtain ⟨rfl, rfl⟩ := Prod.mk.inj (Option.some.inj hclone)
  obtain rfl : s₃ = s' := by
    simpa [fbInsertTry, level_ne_zero h, two_le_level h, hts, key_at_cursor h, hkey,
      smoCheck_cursor h, hfull, cloningAndInsert_eq hnil (show pre.length + 1 < 128 by omega), hrep,
      hcommit] using hins
  exact ⟨swapped_of_commit hnew hheld (parent_live h) hrep hcommit, _, hsound⟩

theorem remove_swaps (hnew : alloc s.live ∉ s.live) (hheld : alloc s.live ∉ held)
    (hrem : fbRemoveTry alloc s key false = some (.success, s')) :
    Swapped held s s' parent pre₂.length (alloc s.live) ∧ ∃ T', Sound s' T' := by
  have hts : fbTraverse s key =
      ((a, pre.length) :: (Path.step parent pre₂ k₂ post₂ up₂).positions, p) := ht
  have hnil : a ≠ fbNilNode := h.shape.ne_nil (by rw [addrs_plug]; simp [Path.addrs])
  by_cases hkey : k = key
  swap
  · simp [fbRemoveTry, level_ne_zero h, two_le_level h, hts, key_at_cursor h, hkey] at hrem
  by_cases hone : (s.mem a).remainOneKey
  · simp [fbRemoveTry, level_ne_zero h, two_le_level h, hts, key_at_cursor h, hkey, hnil,
      smoCheck_cursor h, hone, commit_of_nil h.free] at hrem
  obtain ⟨haround, -, hc⟩ := shape_plug.mp h.shape
  have hkeys := (allKeys_plug.mp h.keys).2
  have hmore := mt (remainOne_iff_width haround hkeys).mpr hone
  obtain ⟨b, s₁, s₂, s₃, hclone, hrep, hcommit, rfl, hsound, -⟩ :=
    node_remove hnew haround hkeys hmore (by simpa using hc) (by simp [h.free])
  have hlt := width_le haround
  have hclone' := hclone
  rw [cloningAndRemove_eq hnil (by omega)] at hclone'
  obtain ⟨-, rfl⟩ := Prod.mk.inj (Option.some.inj hclone')
  obtain rfl : s₃ = s' := by
    simpa [fbRemoveTry, level_ne_zero h, two_le_level h, hts, key_at_cursor h, hkey, hnil,
      smoCheck_cursor h, hone, removeLoop, hclone, hrep, hcommit] using hrem
  exact ⟨swapped_of_commit hnew hheld (parent_live h) hrep hcommit, _, hsound⟩

end Leaf

theorem level_of_replaced (h : LeafReplaced held s old s') : 2 ≤ s.level := by
  obtain ⟨alloc, key, -, -, -, -, hcall⟩ := h
  by_contra hlevel
  have hle : s.level ≤ 1 := by omega
  rcases hcall with ⟨d, hins⟩ | hrem
  · simp [fbInsertTry, hle] at hins
  · simp [fbRemoveTry, hle] at hrem

/-- What a step of another thread does to a tree. -/
theorem LeafReplaced.swaps (hstep : LeafReplaced held s old s') (h : Sound s T) :
    ∃ pre k post parent pre₂ k₂ post₂ new, ∃ (up₂ : Path ℕ ℕ 2) (p : ℕ),
      T = plug (.step old pre k post (.step parent pre₂ k₂ post₂ up₂)) (data p) ∧
      Swapped held s s' parent pre₂.length new ∧ ∃ T', Sound s' T' := by
  have hlevel := level_of_replaced hstep
  obtain ⟨alloc, key, hk, hnew, hheld, hold, hcall⟩ := hstep
  obtain ⟨leaf, pre, k, post, parent, pre₂, k₂, post₂, up₂, p, rfl, ht⟩ := exists_leaf h hlevel hk
  obtain rfl : leaf = old := by simpa [ht] using hold
  have hswaps : Swapped held s s' parent pre₂.length (alloc s.live) ∧ ∃ T', Sound s' T' := by
    rcases hcall with ⟨d, hins⟩ | hrem
    · exact insert_swaps h ht hk hnew hheld hins
    · exact remove_swaps h ht hnew hheld hrem
  exact ⟨pre, k, post, parent, pre₂, k₂, post₂, _, up₂, p, rfl, hswaps⟩

/-- The root and the nodes of the call, after some steps of other threads. With two levels, the
root leads to the leaf as long as none of the steps has replaced it. -/
structure Since (s : Fb) (leaf idx : ℕ) (xs : List ℕ) (s' : Fb) : Prop where
  sound : ∃ T, Sound s' T
  root : s'.root = s.root
  level : s'.level = s.level
  deep : 3 ≤ s.level → s'.mem s.root = s.mem s.root
  keys : s.level = 2 → (s'.mem s.root).key = (s.mem s.root).key
  word : s.level = 2 → ((s'.mem s.root).child idx = leaf ↔ leaf ∉ xs)
  held : s.level = 2 → ∀ a ∈ s.live, a ≠ s.root → s'.mem a = s.mem a

theorem rootOf_mem (path : Path ℕ ℕ n) (p : ℕ) : rootOf path p ∈ {p} + path.addrs := by
  induction path generalizing p with
  | top => simp [rootOf]
  | step a pre k post up ih =>
    have := ih a
    simp only [rootOf, Path.addrs, Multiset.mem_add, Multiset.mem_singleton] at this ⊢
    tauto

theorem nodup_plug {R : Multiset ℕ} {path : Path ℕ ℕ n} {t : Node ℕ ℕ n}
    (h : Shape s R (plug path t)) : (addrs t + path.addrs).Nodup := by
  obtain ⟨-, -, hc⟩ := shape_plug.mp h
  have hd := (Multiset.nodup_cons.mp (Multiset.nodup_of_le hc s.live.nodup)).2
  exact (Multiset.nodup_add.mp (Multiset.nodup_add.mp hd).1).2.1

section Step
variable {pre post : List (ℕ × Node ℕ ℕ 0)} {pre₂ post₂ : List (ℕ × Node ℕ ℕ 1)} {k₂ : ℕ}
  {up₂ : Path ℕ ℕ 2}

/-- Above the parent of a leaf there is another node. -/
theorem root_ne_parent
    (h : Sound s (plug (.step a pre k post (.step parent pre₂ k₂ post₂ up₂)) (data p)))
    (hlevel : 3 ≤ s.level) : s.root ≠ parent := by
  have hlen := h.shape.around.level
  have hroot := h.shape.around.root
  have hnodup := nodup_plug h.shape
  cases up₂ with
  | top =>
    simp only [Path.length] at hlen
    omega
  | step b pre₃ k₃ post₃ up₃ =>
    have hmem := rootOf_mem up₃ b
    rintro rfl
    simp only [rootOf] at hroot
    rw [← hroot] at hmem
    simp only [Path.addrs, Multiset.nodup_add, Multiset.disjoint_add_left,
      Multiset.disjoint_add_right, Multiset.singleton_disjoint] at hnodup
    simp only [Multiset.mem_add, Multiset.mem_singleton] at hmem hnodup
    tauto

theorem root_mem_live (h : Sound s T) (hlevel : s.level ≠ 0) : s.root ∈ s.live := by
  obtain ⟨N, t⟩ := T
  have hN : s.level = N := h.shape.level
  obtain ⟨m, rfl⟩ := Nat.exists_eq_succ_of_ne_zero (hN ▸ hlevel)
  rw [h.shape.root]
  exact h.shape.mem_live (ptr_mem_addrs t)

theorem words_mem_addrsOf {es : List (ℕ × Node ℕ ℕ (n + 1))} {w : ℕ × ℕ} (hw : w ∈ words es) :
    w.2 ∈ addrsOf es := by
  obtain ⟨e, he, rfl⟩ := List.mem_map.mp hw
  exact Multiset.mem_of_le (addrs_le_addrsOf he) (ptr_mem_addrs e.2)

/-- Two slots of a node lead to different nodes. -/
theorem child_ne {i : ℕ}
    (h : Sound s (plug (.step a pre k post (.step parent pre₂ k₂ post₂ up₂)) (data p)))
    (hi : i ≠ pre₂.length) (hlt : i < 128) (hused : (s.mem parent).key i ≠ fbNilKey) :
    (s.mem parent).child i ≠ a := by
  have hfits : Fits (s.mem parent) (words pre₂ ++ (k₂, a) :: words post₂) :=
    h.shape.around.parent.linked.1.1
  have hshape : Shape s 0 (plug (.step parent pre₂ k₂ post₂ up₂)
    (node a (pre ++ (k, data p) :: post))) := h.shape
  have hnodup := nodup_plug hshape
  have hin : i < (words pre₂ ++ (k₂, a) :: words post₂).length := by
    by_contra hge
    exact hused (hfits.tail i (not_lt.mp hge) hlt)
  obtain ⟨w, hw⟩ : ∃ w, (words pre₂ ++ (k₂, a) :: words post₂)[i]? = some w :=
    ⟨_, List.getElem?_eq_getElem hin⟩
  have hmem : w.2 ∈ addrsOf pre₂ + addrsOf post₂ := by
    rcases Nat.lt_or_gt_of_ne hi with hlow | hhigh
    · rw [List.getElem?_append_left (by simpa using hlow)] at hw
      exact Multiset.mem_add.mpr (.inl (words_mem_addrsOf (List.mem_of_getElem? hw)))
    · obtain ⟨j, rfl⟩ := Nat.exists_eq_add_of_lt hhigh
      rw [List.getElem?_append_right (by simp; omega), length_words,
        show pre₂.length + j + 1 - pre₂.length = j + 1 by omega, List.getElem?_cons_succ] at hw
      exact Multiset.mem_add.mpr (.inr (words_mem_addrsOf (List.mem_of_getElem? hw)))
  rw [(hfits.slot i w hw).2]
  rintro rfl
  simp only [addrs_node, Path.addrs, Multiset.nodup_add, Multiset.disjoint_add_left,
    Multiset.disjoint_add_right, Multiset.singleton_disjoint] at hnodup
  simp only [Multiset.mem_add] at hmem hnodup
  tauto

end Step

section Run
variable {s₀ : Fb} (hleaf : leaf ∈ s₀.live) (hidx : idx < 128)
  (hused : s₀.level = 2 → (s₀.mem s₀.root).key idx ≠ fbNilKey)
include hleaf hidx hused

theorem Since.step (h : Since s₀ leaf idx xs s) (hstep : LeafReplaced s₀.live s old s')
    (hroot : s₀.root ∈ s₀.live) : Since s₀ leaf idx (xs ++ [old]) s' := by
  obtain ⟨T, hs⟩ := h.sound
  obtain ⟨pre, k, post, parent, pre₂, k₂, post₂, new, up₂, p, rfl, hsw, hs'⟩ := hstep.swaps hs
  have hlevel := h.level
  have hnew : ∀ a ∈ s₀.live, a ≠ new := fun a ha he => hsw.fresh.2 (he ▸ ha)
  refine ⟨hs', hsw.root.trans h.root, hsw.level.trans hlevel, fun hdeep => ?_, fun htwo => ?_,
    fun htwo => ?_, fun htwo a ha hne => ?_⟩
  · have hne := root_ne_parent hs (by omega)
    rw [h.root] at hne
    rw [hsw.mem _ (hnew _ hroot) hne, h.deep hdeep]
  all_goals
    have hparent : parent = s₀.root := by
      have hlen := hs.shape.around.level
      cases up₂ with
      | top => exact hs.shape.around.root.symm.trans h.root
      | step => simp only [Path.length] at hlen; omega
    subst hparent
  · rw [hsw.word]
    exact h.keys htwo
  · have hchild : (s.mem s₀.root).child pre₂.length = old := hs.shape.around.parent.child_eq
    have hword := h.word htwo
    have hupdate : (s'.mem s₀.root).child =
        Function.update (s.mem s₀.root).child pre₂.length new := by rw [hsw.word]; rfl
    rw [hupdate, List.mem_append, List.mem_singleton]
    by_cases hi : idx = pre₂.length
    · rw [hi, hchild] at hword
      rw [hi, Function.update_self]
      refine ⟨fun he => absurd he.symm (hnew leaf hleaf), fun hnot => ?_⟩
      exact absurd (hword.mpr fun hin => hnot (.inl hin)).symm fun he => hnot (.inr he)
    · rw [Function.update_of_ne hi, hword]
      have hkey : (s.mem s₀.root).key idx ≠ fbNilKey := by
        rw [h.keys htwo]
        exact hused htwo
      have hdiff := child_ne hs hi hidx hkey
      constructor
      · rintro hnot (hin | rfl)
        · exact hnot hin
        · exact hdiff (hword.mpr hnot)
      · exact fun hnot hin => hnot (.inl hin)
  · rw [hsw.mem a (hnew a ha) hne, h.held htwo a ha hne]

end Run

/-- The nodes of the call before any other thread has done anything. -/
theorem since_refl (h : Sound s T) (hword : s.level = 2 → (s.mem s.root).child idx = leaf) :
    Since s leaf idx [] s :=
  ⟨⟨T, h⟩, rfl, rfl, fun _ => rfl, fun _ => rfl, fun htwo => by simp [hword htwo],
    fun _ _ _ _ => rfl⟩

/-- The check notices that the stack is out of date, unless it is a child of the root that another
thread has replaced. With three levels the children of the root are not leaves. -/
theorem stale_stack_detected_iff (h : Sound s T) (hlevel : 2 ≤ s.level) (hk : IsKey key)
    (hstack : fbTraverse s key = ((leaf, idx) :: up, next))
    (hrun : Lts.Run (LeafReplaced s.live) s xs s') :
    (fbSmoCheck s' ((leaf, idx) :: up) next = false → OnPath s' up leaf) ↔
      3 ≤ s.level ∨ leaf ∉ xs := by
  obtain ⟨a, pre, k, post, parent, pre₂, k₂, post₂, up₂, p, rfl, ht⟩ := exists_leaf h hlevel hk
  rw [hstack] at ht
  obtain ⟨hps, rfl⟩ := Prod.mk.inj ht
  obtain ⟨hpos, rfl⟩ := List.cons.inj hps
  obtain ⟨rfl, rfl⟩ := Prod.mk.inj hpos
  have hpath : OnPath s ((parent, pre₂.length) :: up₂.positions) leaf :=
    onPath_of_around h.shape.around.parent
  have hroot := root_mem_live h (by omega)
  have hlive : leaf ∈ s.live := h.shape.mem_live (by rw [addrs_plug]; simp [Path.addrs])
  have hfits : Fits (s.mem parent) (words pre₂ ++ (k₂, leaf) :: words post₂) :=
    h.shape.around.parent.linked.1.1
  have hlen := hfits.len
  simp only [List.length_append, List.length_cons, length_words] at hlen
  have hkey : (s.mem parent).key pre₂.length ≠ fbNilKey := by
    rw [← length_words, hfits.key_at]
    exact (path_words_lt (p := leaf) (allKeys_plug.mp h.keys).2.2.2.2 (k₂, leaf) (by simp)).ne
  have htop : s.level = 2 → up₂ = .top ∧ s.root = parent := by
    intro htwo
    have hlevel' := h.shape.around.level
    cases up₂ with
    | top => exact ⟨rfl, h.shape.around.root⟩
    | step => simp only [Path.length] at hlevel'; omega
  have hsince : Since s leaf pre₂.length ([] ++ xs) s' := by
    have hused : s.level = 2 → (s.mem s.root).key pre₂.length ≠ fbNilKey :=
      fun htwo => (htop htwo).2 ▸ hkey
    refine hrun.history (fun ys u old v hstep hu => hu.step hlive (by omega) hused hstep hroot)
      (since_refl h fun htwo => ?_)
    rw [(htop htwo).2]
    exact hpath.1
  rw [List.nil_append] at hsince
  by_cases hdeep : 3 ≤ s.level
  · refine iff_of_true (fun hcheck => ?_) (.inl hdeep)
    rw [fbSmoCheck, Bool.or_eq_false_iff] at hcheck
    exact onPath_of_smoCheck hpath (hsince.deep hdeep) hcheck.2
  · have htwo : s.level = 2 := by omega
    obtain ⟨rfl, rfl⟩ := htop htwo
    have hne : leaf ≠ s.root := by
      have hnodup := nodup_plug h.shape
      rintro rfl
      simp [Path.addrs] at hnodup
    have hnext : (s'.mem leaf).child pre.length = next := by
      rw [hsince.held htwo leaf hlive hne]
      exact h.shape.around.child_eq
    have hcheck : fbSmoCheck s' ((leaf, pre.length) :: [(s.root, pre₂.length)]) next = false := by
      simp [fbSmoCheck, hnext, hsince.root]
    have hword := hsince.word htwo
    constructor
    · exact fun himp => .inr (hword.mp (himp hcheck).1)
    · rintro (hthree | hnot) -
      · omega
      · exact ⟨hword.mpr hnot, hsince.root⟩

section Example

/-- A root over the leaves 2 and 3. -/
def twoLeaves : Fb where
  mem a :=
    if a = 1 then ⟨fun i => [0, 10].getD i fbNilKey, fun i => [2, 3].getD i 0⟩
    else if a = 2 then ⟨fun i => [1, 2].getD i fbNilKey, fun _ => 0⟩
    else ⟨fun i => [10, 20].getD i fbNilKey, fun _ => 0⟩
  root := 1
  level := 2
  live := {0, 1, 2, 3}
  freeNode := []

theorem fits_getD (ks cs : List ℕ) (child : ℕ → ℕ) (hlen : ks.length ≤ 128)
    (hcs : cs.length = ks.length) (hchild : ∀ i, i < cs.length → child i = cs.getD i 0) :
    Fits ⟨fun i => ks.getD i fbNilKey, child⟩ (ks.zip cs) := by
  refine ⟨by simp [hcs, hlen], fun i e he => ?_, fun i hge _ => ?_⟩
  · obtain ⟨hi, rfl⟩ := List.getElem?_eq_some_iff.mp he
    have hi' : i < ks.length ∧ i < cs.length := by simpa using hi
    simp [hi', hchild i hi'.2]
  · have hge' : ks.length ≤ i := by simpa [hcs] using hge
    simp [hge']

theorem twoLeaves_sound : Sound twoLeaves
    ⟨2, node 1 [(0, node 2 [(1, data 0), (2, data 0)]),
      (10, node 3 [(10, data 0), (20, data 0)])]⟩ := by
  have hroot := fits_getD [0, 10] [2, 3] (fun i => [2, 3].getD i 0) (by decide) rfl fun _ _ => rfl
  have hleaf : ∀ k₁ k₂, Fits ⟨fun i => [k₁, k₂].getD i fbNilKey, fun _ => 0⟩ [(k₁, 0), (k₂, 0)] :=
    fun k₁ k₂ => fits_getD [k₁, k₂] [0, 0] _ (by simp) rfl fun i hi => by
      match i, hi with
      | 0, _ => rfl
      | 1, _ => rfl
  refine ⟨⟨rfl, rfl, ⟨⟨hroot, by simp [words]⟩, ?_⟩, by decide⟩, ?_, rfl⟩
  · rw [List.forall_mem_cons, List.forall_mem_singleton]
    exact ⟨⟨⟨hleaf 1 2, by simp [words]⟩, fun _ _ => trivial⟩,
      ⟨⟨hleaf 10 20, by simp [words]⟩, fun _ _ => trivial⟩⟩
  · simp [AllKeys, node, IsKey, data, fbNilKey]

/-- The stack of the key 5 leads through slot 1 of the leaf 2. -/
theorem twoLeaves_stack : fbTraverse twoLeaves 5 = ([(2, 1), (1, 0)], 0) := by decide +kernel

/-- Another thread inserts the key 4 and so replaces the leaf 2 by the node 4. -/
theorem twoLeaves_replaced : ∃ s', Lts.Run (LeafReplaced twoLeaves.live) twoLeaves [2] s' ∧
    (s'.mem 1).child 0 = 4 ∧ fbSmoCheck s' [(2, 1), (1, 0)] 0 = false := by
  obtain ⟨⟨r, s'⟩, htry, heq⟩ := Option.map_eq_some_iff.mp (show
    (fbInsertTry nextNode twoLeaves 4 0 false).map (fun x =>
        (x.1, (x.2.mem 1).child 0, fbSmoCheck x.2 [(2, 1), (1, 0)] 0)) =
      some (.success, 4, false) by decide +kernel)
  simp only [Prod.mk.injEq] at heq
  obtain ⟨rfl, hword, hcheck⟩ := heq
  refine ⟨s', .single ⟨nextNode, 4, (by decide : 4 < fbNilKey), fresh_nextNode _, fresh_nextNode _,
    ?_, .inl ⟨0, htry⟩⟩, hword, hcheck⟩
  decide +kernel

/-- With two levels the check lets a call go on with the leaf 2 that has been replaced. -/
theorem twoLeaves_stale : ∃ s', Lts.Run (LeafReplaced twoLeaves.live) twoLeaves [2] s' ∧
    fbSmoCheck s' [(2, 1), (1, 0)] 0 = false ∧ ¬OnPath s' [(1, 0)] 2 := by
  obtain ⟨s', hrun, hword, hcheck⟩ := twoLeaves_replaced
  refine ⟨s', hrun, hcheck, fun hpath => ?_⟩
  have hchild : (s'.mem 1).child 0 = 2 := hpath.1
  rw [hword] at hchild
  cases hchild

theorem twoLeaves_current :
    fbSmoCheck twoLeaves [(2, 1), (1, 0)] 0 = false ∧ OnPath twoLeaves [(1, 0)] 2 := by
  have hcheck : fbSmoCheck twoLeaves [(2, 1), (1, 0)] 0 = false := by decide +kernel
  exact ⟨hcheck, (stale_stack_detected_iff twoLeaves_sound (by decide) (by decide : 5 < fbNilKey)
    twoLeaves_stack (.refl _)).mpr (.inr List.not_mem_nil) hcheck⟩

end Example

end YwStorage.FbTree

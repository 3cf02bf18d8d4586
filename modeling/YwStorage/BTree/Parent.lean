import YwStorage.BTree.Split

/-! What `split_insert` does with the halves: they go to the parent, or to a new root. -/
namespace YwStorage.BTree
open MultiTree Programs Supply

variable {α : Type} [LinearOrder α] {c : Config} {S : ℕ → Prop} {supply : Finset ℕ → Option ℕ}
  {s s' : Call α} {n a b i m fuel l r p : ℕ} {k k' d pk : α} {E : Call α → Prop}

section Rules
variable {us vs : List (α × ℕ)} {e w : α × ℕ}

theorem wp_inplaceUpdate {Q : Unit → Call α → Prop} (hlock : a ∉ s.tree.locked)
    (hp : (s.tree.mem a).entries = us ++ e :: vs) (hs : ∀ f ∈ us, f.1 < e.1)
    (he : us ≠ [] → e.1 ≤ w.1) (hv : ∀ f ∈ vs, w.1 < f.1)
    (hQ : Q () (s.setPage a { s.tree.mem a with
      body := ⟨us ++ w :: vs, (s.tree.mem a).body.used⟩ })) :
    Wp (Call.inplaceUpdate c a w) s Q E := by
  simp only [Call.inplaceUpdate, wp_bind, wp_fetch, if_neg hlock, update_of_cut hp hs he hv, wp_put]
  exact hQ

theorem wp_insertRecord {Q : Bool → Call α → Prop} (hlock : a ∉ s.tree.locked)
    (hp : (s.tree.mem a).entries = us ++ vs) (hu : ∀ e ∈ us, e.1 ≤ w.1) (hv : ∀ e ∈ vs, w.1 < e.1)
    (hfits : (s.tree.mem a).Fits c → Q true (s.setPage a { s.tree.mem a with
      body := ⟨us ++ w :: vs, (s.tree.mem a).body.used + c.recordSize⟩ }))
    (hfull : ¬ (s.tree.mem a).Fits c → Q false s) :
    Wp (Call.insertRecord c a w) s Q E := by
  simp only [Call.insertRecord, wp_bind, wp_fetch, if_neg hlock, insert_of_cut hp hu hv]
  by_cases hroom : (s.tree.mem a).Fits c
  · simp only [if_pos hroom, wp_bind, wp_put, wp_pure]
    exact hfits hroom
  · simp only [if_neg hroom, wp_pure]
    exact hfull hroom

/-- A page that is not locked and has never lost a record. -/
theorem wp_insertFresh {isLeaf : Bool} {stamp : ℕ} {Q : Bool → Call α → Prop}
    (hlock : a ∉ s.tree.locked) (hpage : s.tree.mem a = filled c isLeaf stamp (us ++ vs))
    (hu : ∀ e ∈ us, e.1 ≤ w.1) (hv : ∀ e ∈ vs, w.1 < e.1)
    (hfit : (us ++ w :: vs).length * (c.recordSize + c.page.slotSize) ≤ c.page.bodySize)
    (hQ : Q true (s.setPage a (filled c isLeaf stamp (us ++ w :: vs)))) :
    Wp (Call.insertRecord c a w) s Q E := by
  have hentries : (s.tree.mem a).entries = us ++ vs := by rw [hpage, filled]
  refine wp_insertRecord hlock hentries hu hv (fun _ => ?_)
    fun hfull => absurd (fits_of_filled hpage hfit) hfull
  rw [grow_filled hpage]
  exact hQ

end Rules

section Tidy
variable {used used' : Multiset ℕ} {ls rs : List (α × ℕ)}

theorem Books.setPage (h : Books s used) (q : Page α) : Books (s.setPage b q) used :=
  ⟨h.count, h.clean, h.rcu_nodup, h.locked, h.locks_live, h.allocs_live⟩

theorem Books.free_mem (h : Books s used) (hb : b ∈ s.freeStack) : b ∈ s.tree.live :=
  Multiset.mem_of_le h.count (by simp [hb])

theorem Books.take (h : Books s used) (hb : b ∉ s.tree.live) : Books (s.take b) (used + {b}) := by
  refine ⟨?_, fun e he => ?_, h.rcu_nodup.erase b, h.locked, fun e he => ?_, fun e he => ?_⟩
  · show 0 ::ₘ (used + {b} + (s.freeStack : Multiset ℕ)) ≤ (insert b s.tree.live).val
    rw [Finset.insert_val_of_notMem hb]
    calc 0 ::ₘ (used + {b} + (s.freeStack : Multiset ℕ))
        = b ::ₘ 0 ::ₘ (used + (s.freeStack : Multiset ℕ)) := by
          simp only [← Multiset.singleton_add]
          abel
      _ ≤ b ::ₘ s.tree.live.val := Multiset.cons_le_cons _ h.count
  · have he' := (h.rcu_nodup.mem_erase_iff).mp he
    show e ∉ insert b s.tree.live
    simpa [he'.1] using h.clean e he'.2
  · exact Finset.mem_insert_of_mem (h.locks_live e he)
  · rcases List.mem_cons.mp he with rfl | he
    · exact Finset.mem_insert_self ..
    · exact Finset.mem_insert_of_mem (h.allocs_live e he)

theorem Books.blank (h : Books s used) (hb : b ∉ s.lockStack) (isLeaf : Bool) :
    Books (s.blank b isLeaf) used := by
  refine ⟨h.count, h.clean, h.rcu_nodup, ?_, h.locks_live, h.allocs_live⟩
  show s.tree.locked.erase b = _
  rw [h.locked, Finset.erase_eq_of_notMem (by simpa using hb)]
  rfl

theorem Tidy.setPage (h : Tidy s i m used) (q : Page α) : Tidy (s.setPage b q) i m used :=
  ⟨h.toBooks.setPage q, h.allocs, h.frees, h.locks⟩

/-- The node at `a` makes room for two new pages. -/
theorem Tidy.halved (h : Tidy s i m used) (hl : l ∉ s.tree.live) (hr : r ∉ s.tree.live)
    (hlr : l ≠ r) (hused : used' + {a} = used + {l} + {r}) :
    Tidy (s.halved c a l r ls rs) (i + 1) (m + 2) used' := by
  have hlive : (s.halved c a l r ls rs).tree.live = insert r (insert l s.tree.live) := rfl
  have hrcu : (s.halved c a l r ls rs).tree.rcu = (s.tree.rcu.erase l).erase r := rfl
  have hlock_l : l ∉ s.lockStack := fun hb => hl (h.locks_live l hb)
  have hlock_r : r ∉ s.lockStack := fun hb => hr (h.locks_live r hb)
  refine ⟨⟨?_, fun b hb => ?_, ?_, ?_, fun b hb => ?_, fun b hb => ?_⟩, ?_, ?_, ?_⟩
  · show 0 ::ₘ (used' + ((a :: s.freeStack : List ℕ) : Multiset ℕ)) ≤ _
    have hr' : r ∉ insert l s.tree.live := by simp [hr, hlr.symm]
    have hcount := h.count
    rw [hlive, Finset.insert_val_of_notMem hr', Finset.insert_val_of_notMem hl,
      ← Multiset.cons_coe, ← Multiset.singleton_add a, ← add_assoc, hused]
    calc 0 ::ₘ (used + {l} + {r} + (s.freeStack : Multiset ℕ))
        = r ::ₘ l ::ₘ (0 ::ₘ (used + (s.freeStack : Multiset ℕ))) := by
          simp only [← Multiset.singleton_add]
          abel
      _ ≤ r ::ₘ l ::ₘ s.tree.live.val := Multiset.cons_le_cons _ (Multiset.cons_le_cons _ hcount)
  · rw [hrcu, (h.rcu_nodup.erase l).mem_erase_iff, h.rcu_nodup.mem_erase_iff] at hb
    rw [hlive]
    simpa [hb.1, hb.2.1] using h.clean b hb.2.2
  · rw [hrcu]
    exact (h.rcu_nodup.erase l).erase r
  · show insert r (insert l ((s.tree.locked.erase l).erase r)) = (r :: l :: s.lockStack).toFinset
    rw [h.locked, Finset.erase_eq_of_notMem (by simp [hlock_r]),
      Finset.erase_eq_of_notMem (by simpa using hlock_l), List.toFinset_cons, List.toFinset_cons]
  · rw [hlive]
    have hb' : b ∈ r :: l :: s.lockStack := hb
    simp only [List.mem_cons] at hb'
    rcases hb' with rfl | rfl | hb'
    · simp
    · simp
    · simp [h.locks_live b hb']
  · rw [hlive]
    have hb' : b ∈ r :: l :: s.allocStack := hb
    simp only [List.mem_cons] at hb'
    rcases hb' with rfl | rfl | hb'
    · simp
    · simp
    · simp [h.allocs_live b hb']
  · show (r :: l :: s.allocStack).length = _
    rw [List.length_cons, List.length_cons, h.allocs]
    ring
  · show (a :: s.freeStack).length = _
    rw [List.length_cons, h.frees]
  · show (r :: l :: s.lockStack).length = _
    rw [List.length_cons, List.length_cons, h.locks]

end Tidy

/-! ### The parent gets the halves -/

/-- The pages of both halves of a node, with the keys for them. -/
structure Parted (c : Config) (S : ℕ → Prop) (mem : ℕ → Page α) (P : α → Prop) (l r : ℕ)
    (ls rs : List (α × Node α ℕ n)) (k d : α) : Prop where
  halved : Halved (mark mem) P l r ls rs k d
  left : Linked (Holds c S mem) (node l ls)
  right : Linked (Holds c S mem) (node r rs)
  left_readable : Readable (mark mem) (node l ls)
  right_readable : Readable (mark mem) (node r rs)

section Parent
variable {up : Path α ℕ (n + 1)} {us vs ls rs : List (α × Node α ℕ n)} {x : Node α ℕ n}
  {mem : ℕ → Page α}

namespace Rising

theorem linked_half {fs : List (α × Node α ℕ n)} (h : Rising c S s up a us vs k x i)
    (hsub : ∀ e ∈ fs, e ∈ us ++ (k, x) :: vs) (hpage : Holds c S mem n b (words fs))
    (hmem : ∀ f ∈ addrsOf (us ++ (k, x) :: vs), mem f = s.tree.mem f) :
    Linked (Holds c S mem) (node b fs) := by
  refine ⟨hpage, fun e he => (h.entries e (hsub e he)).congr fun f hf _ _ hold => ?_⟩
  exact hold.congr (hmem f (Multiset.mem_of_le (addrs_le_addrsOf (hsub e he)) hf))

/-- Splitting the node, where the rest of the tree is still there. -/
theorem parted (h : Rising c S s up a us vs k x i) (hcut : Cut s us vs k x l r ls rs k' d)
    (hmark : ∀ b ∈ addrs (meant up a us vs k x).2, mark mem b = mark s.tree.mem b)
    (hmem : ∀ f ∈ addrsOf (us ++ (k, x) :: vs), mem f = s.tree.mem f)
    (hl : mem l = filled c (s.tree.mem a).isLeaf s.tree.smoSeq (words ls))
    (hr : mem r = filled c (s.tree.mem a).isLeaf s.tree.smoSeq (words rs)) :
    Parted c S mem (room False (fun _ => True) up) l r ls rs k' d := by
  obtain ⟨hne₁, hne₂⟩ := hcut.ne_nil
  obtain ⟨hlen₁, hlen₂⟩ := hcut.length_le
  have hpage_l := h.holds_half hlen₁ hl
  have hpage_r := h.holds_half hlen₂ hr
  have hmark_l := hpage_l.mark_none hne₁
  have hmark_r := hpage_r.mark_none hne₂
  have horder := (h.order.congr hmark).hole
  have hread := (h.readable.congr hmark).hole
  have hkey : ∀ (q : ℕ) (fs : List (α × Node α ℕ n)), fs ≠ [] →
      (∀ e ∈ fs, e ∈ us ++ (k, x) :: vs) →
      leftKey (mark mem) (node q fs) = leftKey (mark s.tree.mem) (node q fs) := by
    intro q fs hfs hsub
    obtain ⟨e, fs, rfl⟩ := List.exists_cons_of_ne_nil hfs
    refine leftKey_head fun b hb => mark_congr (hmem b ?_)
    exact Multiset.mem_of_le (addrs_le_addrsOf (hsub e (by simp))) hb
  refine ⟨?_, h.linked_half hcut.left_sub hpage_l hmem, h.linked_half hcut.right_sub hpage_r hmem,
    hread.part hcut.left_sub hne₁ hmark_l, hread.part hcut.right_sub hne₂ hmark_r⟩
  rw [← hcut.append] at horder hread
  refine horder.halve hread hne₁ hne₂ hmark_l hmark_r ?_ ?_
  · rw [hkey l _ hne₁ hcut.left_sub, hcut.left_key]
  · rw [hkey r _ hne₂ hcut.right_sub, hcut.right_key]

end Rising

/-- The parent has its entries `ws` in place of the old ones. -/
def redirect (s : Call α) (p : ℕ) (ws : List (α × ℕ)) : Call α :=
  s.setPage p { s.tree.mem p with body := ⟨ws, (s.tree.mem p).body.used⟩ }

namespace Rising
variable {pre post : List (α × Node α ℕ (n + 1))} {up' : Path α ℕ (n + 2)}

/-- The parent is not among the nodes below it or above it. -/
theorem parent_notMem (h : Rising c S s (.step p pre pk post up') a us vs k x i) :
    p ∉ addrs (node a (us ++ (k, x) :: vs)) ∧ p ∉ addrsOf pre ∧ p ∉ addrsOf post ∧
      p ∉ up'.addrs := by
  have hnodup := h.nodup
  rw [addrs_plug, Path.addrs] at hnodup
  simp only [Multiset.nodup_add, Multiset.disjoint_add_left, Multiset.disjoint_add_right,
    Multiset.disjoint_singleton, Multiset.singleton_disjoint] at hnodup
  tauto

theorem parent_mem (h : Rising c S s (.step p pre pk post up') a us vs k x i) :
    p ∈ s.tree.live := by
  refine h.mem_live ?_
  rw [addrs_plug, Path.addrs]
  simp

/-- What the pages of the tree hold after the parent has the left half. -/
theorem mem_redirect {ls rs ws : List (α × ℕ)} (hl : l ∉ s.tree.live)
    (hr : r ∉ s.tree.live) (hb : b ∈ s.tree.live) (hbp : b ≠ p) :
    (redirect (s.halved c a l r ls rs) p ws).tree.mem b = s.tree.mem b := by
  rw [redirect, mem_setPage_ne _ hbp]
  exact mem_halved (fun he => hl (he ▸ hb)) fun he => hr (he ▸ hb)

theorem mark_redirect {ls rs ws : List (α × ℕ)}
    (h : Rising c S s (.step p pre pk post up') a us vs k x i) (hl : l ∉ s.tree.live)
    (hr : r ∉ s.tree.live) (hws : ws ≠ []) (hb : b ∈ s.tree.live) :
    mark (redirect (s.halved c a l r ls rs) p ws).tree.mem b = mark s.tree.mem b := by
  by_cases hbp : b = p
  · subst hbp
    have hold : (s.tree.mem b).entries ≠ [] := by
      rw [h.path.1.entries]
      simp
    rw [mark_of_ne hold, mark_of_ne]
    rw [redirect, mem_setPage_self]
    exact hws
  · exact mark_congr (mem_redirect hl hr hb hbp)

theorem addrs_join (h : ls ++ rs = us ++ (k, x) :: vs) :
    addrs (meant up' p (pre ++ [(k', node l ls)]) post d (node r rs)).2 + {a} =
      addrs (meant (.step p pre pk post up') a us vs k x).2 + {l} + {r} := by
  have hsum := congrArg addrsOf h
  rw [addrsOf_append, addrsOf_append, addrsOf_cons] at hsum
  simp only [addrs_plug, Path.addrs, addrs_node, addrsOf_append, addrsOf_cons, addrsOf_nil]
  rw [← hsum]
  abel

/-- The first key of the left half lies where the node lies. -/
theorem left_key_room (h : Rising c S s up a us vs k x i)
    (hcut : Cut s us vs k x l r ls rs k' d) : room False (fun _ => True) up k' := by
  have horder := h.order.hole
  have hkey := hcut.left_key
  have happend := hcut.append
  obtain ⟨e, es, rfl⟩ := List.exists_cons_of_ne_nil hcut.ne_nil.1
  rw [← happend] at horder
  refine horder.leftKey_mem (hkey ▸ ?_)
  exact leftKey_head fun _ _ => rfl

/-- The halves take the place of the node in its parent, which still lacks the right one. -/
theorem join (h : Rising c S s (.step p pre pk post up') a us vs k x i)
    (hcut : Cut s us vs k x l r ls rs k' d) :
    Pending c S (redirect (s.halved c a l r (words ls) (words rs)) p
        (words pre ++ (k', l) :: words post)) up' p
      (pre ++ [(k', node l ls)]) post d (node r rs) (i + 1) (3 * i + 3) := by
  obtain ⟨hpage, hpre, hpost, hup⟩ := h.path
  obtain ⟨hp_node, hp_pre, hp_post, hp_up⟩ := h.parent_notMem
  have hl := hcut.left_new
  have hr := hcut.right_new
  have hlp : l ≠ p := fun he => hl (he ▸ h.parent_mem)
  have hrp : r ≠ p := fun he => hr (he ▸ h.parent_mem)
  have hlive : ∀ b ∈ (Path.step p pre pk post up').addrs, b ∈ s.tree.live := fun b hb => by
    refine h.mem_live ?_
    rw [addrs_plug]
    exact Multiset.mem_add.mpr (.inr hb)
  simp only [Path.addrs, Multiset.mem_add, Multiset.mem_singleton] at hlive
  generalize hs₃ : redirect (s.halved c a l r (words ls) (words rs)) p
    (words pre ++ (k', l) :: words post) = s₃
  have hmem : ∀ b ∈ s.tree.live, b ≠ p → s₃.tree.mem b = s.tree.mem b := fun b hb hbp =>
    hs₃ ▸ mem_redirect hl hr hb hbp
  have hmark : ∀ b ∈ addrs (meant (.step p pre pk post up') a us vs k x).2,
      mark s₃.tree.mem b = mark s.tree.mem b := fun b hb =>
    hs₃ ▸ h.mark_redirect hl hr (by simp) (h.mem_live hb)
  have hparted : Parted c S s₃.tree.mem (room False (fun _ => True) (.step p pre pk post up')) l r
      ls rs k' d := by
    refine h.parted hcut hmark (fun f hf => hmem f (h.entry_mem hf) ?_) ?_ ?_
    · rintro rfl
      exact hp_node (Multiset.mem_add.mpr (.inr hf))
    · rw [← hs₃, redirect, mem_setPage_ne _ hlp, mem_halved_left hcut.ne]
    · rw [← hs₃, redirect, mem_setPage_ne _ hrp, mem_halved_right]
  have hcongr : ∀ b ∈ s.tree.live, b ≠ p → ∀ n ws, Holds c S s.tree.mem n b ws →
      Holds c S s₃.tree.mem n b ws := fun b hb hbp _ _ hold => hold.congr (hmem b hb hbp)
  have hpage' : Holds c S s₃.tree.mem (n + 1) p
      (words (pre ++ [(k', node l ls)] ++ post)) := by
    have hwords : words (pre ++ [(k', node l ls)] ++ post) =
        words pre ++ (k', l) :: words post := by simp
    rw [hwords]
    refine hpage.swap ?_ (by simp)
    rw [← hs₃, redirect, mem_setPage_self, mem_halved hlp.symm hrp.symm]
  refine ⟨?_, ?_, hpage', ?_, ?_, ?_, ?_, ?_, ?_, ?_⟩
  · rw [← hs₃]
    exact h.root
  · refine hup.congr fun b hb => hcongr b (hlive b (.inr hb)) ?_
    rintro rfl
    exact hp_up hb
  · rw [List.forall_mem_append, List.forall_mem_append, List.forall_mem_singleton,
      List.forall_mem_cons]
    refine ⟨⟨?_, hparted.left⟩, hparted.right, ?_⟩
    · refine linked_entries_congr hpre fun b hb => hcongr b (hlive b (.inl (.inl (.inr hb)))) ?_
      rintro rfl
      exact hp_pre hb
    · refine linked_entries_congr hpost fun b hb => hcongr b (hlive b (.inl (.inr hb))) ?_
      rintro rfl
      exact hp_post hb
  · have horder : Ordered False (mark s₃.tree.mem) (fun _ => True)
        (plug up' (node p (pre ++ (pk, node a (us ++ (k, x) :: vs)) :: post))).2 :=
      h.order.congr hmark
    refine horder.replug (fun _ _ => rfl) ?_
    rw [List.append_assoc, List.singleton_append]
    exact hparted.halved.join horder.hole
  · have hread : Readable (mark s₃.tree.mem)
        (plug up' (node p (pre ++ (pk, node a (us ++ (k, x) :: vs)) :: post))).2 :=
      h.readable.congr hmark
    have hsubs := (readable_inner.mp hread.hole).2
    rw [List.forall_mem_append, List.forall_mem_cons] at hsubs
    refine hread.replug (fun _ _ => rfl) (readable_inner.mpr ⟨by simp, ?_⟩)
    rw [List.forall_mem_append, List.forall_mem_append, List.forall_mem_singleton,
      List.forall_mem_cons]
    exact ⟨⟨hsubs.1, hparted.left_readable⟩, hparted.right_readable, hsubs.2.2⟩
  · rw [← hs₃]
    exact (h.tidy.halved hl hr hcut.ne (addrs_join hcut.append)).setPage _
  · rw [← hs₃]
    exact h.stamp
  · intro b hb
    have hb' : b ∈ s.tree.live := hlive b (.inr (up'.nodes_subset b hb))
    have hbl : b ≠ l := fun he => hl (he ▸ hb')
    have hbr : b ≠ r := fun he => hr (he ▸ hb')
    rw [← hs₃]
    show b ∉ r :: l :: s.lockStack
    simpa [hbl, hbr] using h.unlocked b (List.mem_cons_of_mem _ hb)
  · intro b hb
    have hb' : b ∈ s.tree.live := by
      rcases List.mem_cons.mp hb with rfl | hb
      · exact h.parent_mem
      · exact hlive b (.inr (up'.nodes_subset b hb))
    have hbl : b ≠ l := fun he => hl (he ▸ hb')
    have hbr : b ≠ r := fun he => hr (he ▸ hb')
    rw [← hs₃]
    show b ∉ r :: l :: s.allocStack
    simpa [hbl, hbr] using h.not_new b (List.mem_cons_of_mem _ hb)

end Rising
/-! ### The end of the cascade -/

/-- The page `q` becomes the root and gets the entries `ws`. -/
def rooted (c : Config) (s : Call α) (q : ℕ) (ws : List (α × ℕ)) : Call α :=
  let s' := ((s.take q).blank q false).setPage q (filled c false s.tree.smoSeq ws)
  { s' with tree := { s'.tree with root := q } }

theorem mem_rooted_self {q : ℕ} {ws : List (α × ℕ)} :
    (rooted c s q ws).tree.mem q = filled c false s.tree.smoSeq ws := Function.update_self ..

theorem mem_rooted {q : ℕ} {ws : List (α × ℕ)} (hb : b ≠ q) :
    (rooted c s q ws).tree.mem b = s.tree.mem b := by
  show Function.update (Function.update s.tree.mem q _) q _ b = _
  rw [Function.update_of_ne hb, Function.update_of_ne hb]

/-- The call has put the tree `T` in the pages. -/
structure Done (c : Config) (S : ℕ → Prop) (s : Call α) (T : Σ N, Node α ℕ N) : Prop where
  root : s.tree.root = ptr T.2
  linked : Linked (Holds c S s.tree.mem) T.2
  order : Ordered False (mark s.tree.mem) (fun _ => True) T.2
  readable : Readable (mark s.tree.mem) T.2
  books : Books s (addrs T.2)

namespace Pending

/-- There is space for the entry. -/
theorem done (h : Pending c S s up a us vs k x i m) (hne : us ++ vs ≠ [])
    (hfits : (s.tree.mem a).Fits c) :
    Done c S (s.setPage a { s.tree.mem a with
        body := ⟨words us ++ (k, ptr x) :: words vs, (s.tree.mem a).body.used + c.recordSize⟩ })
      (meant up a us vs k x) := by
  obtain ⟨ha_entries, ha_up⟩ := h.node_notMem
  generalize hs' : s.setPage a { s.tree.mem a with
    body := ⟨words us ++ (k, ptr x) :: words vs, (s.tree.mem a).body.used + c.recordSize⟩ } = s'
  have hpage : Holds c S s'.tree.mem n a (words (us ++ (k, x) :: vs)) := by
    refine h.page.grow hfits ?_ ?_
    · rw [← hs', mem_setPage_self, words_append, words_cons]
    · simp only [length_words, List.length_append, List.length_cons]
      omega
  have hmem : ∀ b, b ≠ a → s'.tree.mem b = s.tree.mem b := fun b hb => by
    rw [← hs', mem_setPage_ne _ hb]
  have hmark : ∀ b, mark s'.tree.mem b = mark s.tree.mem b := by
    intro b
    by_cases hb : b = a
    · rw [hb, h.page.mark_none hne, hpage.mark_none (by simp)]
    · exact mark_congr (hmem b hb)
  refine ⟨?_, linked_plug.mpr ⟨⟨hpage, ?_⟩, ?_⟩, h.order.congr fun b _ => hmark b,
    h.readable.congr fun b _ => hmark b, ?_⟩
  · rw [ptr_plug, ptr_node, ← hs']
    exact h.root
  · refine linked_entries_congr h.entries fun b hb _ _ hold => hold.congr (hmem b ?_)
    rintro rfl
    exact ha_entries hb
  · refine h.path.congr fun b hb _ _ hold => hold.congr (hmem b ?_)
    rintro rfl
    exact ha_up hb
  · rw [← hs']
    exact h.tidy.toBooks.setPage _

/-- There is no space, and the node is locked to be split. -/
theorem rise (h : Pending c S s up a us vs k x i (3 * i)) (hlock : a ∉ s.lockStack) :
    Rising c S (s.pushLock a) up a us vs k x i := by
  have ht := h.tidy
  refine ⟨⟨h.root, h.path, h.page, h.entries, h.order, h.readable,
    ⟨⟨ht.count, ht.clean, ht.rcu_nodup, ?_, ?_, ht.allocs_live⟩, ht.allocs, ht.frees, ?_⟩, h.stamp,
    ?_, h.not_new⟩, List.mem_cons_self ..⟩
  · show insert a s.tree.locked = (a :: s.lockStack).toFinset
    rw [ht.locked, List.toFinset_cons]
  · show ∀ b ∈ a :: s.lockStack, b ∈ s.tree.live
    rw [List.forall_mem_cons]
    exact ⟨h.node_mem, ht.locks_live⟩
  · show (a :: s.lockStack).length = _
    rw [List.length_cons, ht.locks]
  · intro b hb
    have hba : b ≠ a := by
      rintro rfl
      exact h.node_notMem.2 (up.nodes_subset b hb)
    show b ∉ a :: s.lockStack
    simpa [hba] using h.unlocked b hb

end Pending

namespace Rising

theorem kept_halved {ls rs : List (α × ℕ)} (h : Rising c S s up a us vs k x i)
    (hl : l ∉ s.tree.live) (hr : r ∉ s.tree.live) : Kept s (s.halved c a l r ls rs) := by
  have hlock_l : l ∉ s.lockStack := fun hb => hl (h.tidy.locks_live l hb)
  have hlock_r : r ∉ s.lockStack := fun hb => hr (h.tidy.locks_live r hb)
  have hpages := (((Kept.refl h.tidy.locked).take hl).take hr).free (a :: s.freeStack)
  have hleft := hpages.blank (s.tree.mem a).isLeaf hl hlock_l
  have hblank := hleft.blank (s.tree.mem a).isLeaf hr hlock_r
  exact (hblank.pushLock.pushLock.setPage hl _).setPage hr _

theorem tidy_top (h : Rising c S s .top a us vs k x i) (hcut : Cut s us vs k x l r ls rs k' d) :
    Tidy (s.halved c a l r (words ls) (words rs)) (i + 1) (3 * i + 3)
      (addrs (node l ls) + addrs (node r rs)) := by
  refine h.tidy.halved hcut.left_new hcut.right_new hcut.ne ?_
  have hsum := congrArg addrsOf hcut.append
  rw [addrsOf_append] at hsum
  show _ = addrs (node a (us ++ (k, x) :: vs)) + _ + _
  rw [addrs_node, addrs_node, addrs_node, ← hsum]
  abel

theorem done_rooted {q : ℕ} (h : Rising c S s .top a us vs k x i)
    (hcut : Cut s us vs k x l r ls rs k' d)
    (hcap : 2 * (c.recordSize + c.page.slotSize) ≤ c.page.bodySize)
    (hq : q ∉ insert r (insert l s.tree.live)) :
    Done c S (rooted c (s.halved c a l r (words ls) (words rs)) q [(k', l), (d, r)])
      ⟨n + 2, node q [(k', node l ls), (d, node r rs)]⟩ := by
  have hl := hcut.left_new
  have hr := hcut.right_new
  have hbooks := (h.tidy_top (c := c) hcut).toBooks
  have hkept : Kept s (s.halved c a l r (words ls) (words rs)) := h.kept_halved hl hr
  have hmem_l : (s.halved c a l r (words ls) (words rs)).tree.mem l = _ := mem_halved_left hcut.ne
  have hmem_r : (s.halved c a l r (words ls) (words rs)).tree.mem r = _ := mem_halved_right
  have hlive : (s.halved c a l r (words ls) (words rs)).tree.live =
    insert r (insert l s.tree.live) := rfl
  generalize s.halved c a l r (words ls) (words rs) = s₂ at *
  rw [← hlive] at hq
  have hql : l ≠ q := by
    rintro rfl
    exact hq (by simp [hlive])
  have hqr : r ≠ q := by
    rintro rfl
    exact hq (by simp [hlive])
  have hmem : ∀ b ∈ s.tree.live, (rooted c s₂ q [(k', l), (d, r)]).tree.mem b = s.tree.mem b := by
    intro b hb
    have hbq : b ≠ q := fun he => hq (he ▸ hkept.live hb)
    rw [mem_rooted hbq, hkept.mem b hb]
  have hparted : Parted c S (rooted c s₂ q [(k', l), (d, r)]).tree.mem (fun _ => True) l r ls rs
      k' d := by
    refine h.parted hcut (fun b hb => mark_congr (hmem b (h.mem_live hb)))
      (fun f hf => hmem f (h.entry_mem hf)) ?_ ?_
    · rw [mem_rooted hql, hmem_l]
    · rw [mem_rooted hqr, hmem_r]
  refine ⟨rfl, linked_node.mpr ⟨?_, ?_⟩, hparted.halved.root, ?_, ?_⟩
  · refine holds_filled (fun _ => ?_) ?_ mem_rooted_self
    · rw [hkept.smoSeq]
      exact h.stamp
    · simpa using hcap
  · rw [List.forall_mem_cons, List.forall_mem_singleton]
    exact ⟨hparted.left, hparted.right⟩
  · refine readable_inner.mpr ⟨by simp, ?_⟩
    rw [List.forall_mem_cons, List.forall_mem_singleton]
    exact ⟨hparted.left_readable, hparted.right_readable⟩
  · have hlock : q ∉ s₂.lockStack := fun hb => hq (hbooks.locks_live q hb)
    have hall := (((hbooks.take hq).blank hlock false).setPage (b := q)
      (filled c false s₂.tree.smoSeq [(k', l), (d, r)]))
    have hused : addrs (node q [(k', node l ls), (d, node r rs)]) =
        addrs (node l ls) + addrs (node r rs) + {q} := by
      rw [addrs_node]
      simp only [addrsOf_cons, addrsOf_nil]
      abel
    rw [hused]
    exact ⟨hall.count, hall.clean, hall.rcu_nodup, hall.locked, hall.locks_live, hall.allocs_live⟩

/-- The part of `split_insert` that makes a new root. -/
theorem wp_makeRoot {Q : Unit → Call α → Prop} (h : Rising c S s .top a us vs k x i)
    (hfresh : FreshSupply supply) (hcut : Cut s us vs k x l r ls rs k' d)
    (hcap : 2 * (c.recordSize + c.page.slotSize) ≤ c.page.bodySize) (hguard : 2 * i + 2 < guardSize)
    (hE : ∀ s', Kept s s' → supply (insert r (insert l s.tree.live)) = none → E s')
    (hQ : ∀ q, supply (insert r (insert l s.tree.live)) = some q →
      Q () (rooted c (s.halved c a l r (words ls) (words rs)) q [(k', l), (d, r)])) :
    Wp (Call.makeRoot c supply ⟨(k', l), (d, r)⟩) (s.halved c a l r (words ls) (words rs)) Q E := by
  have ht := h.tidy_top (c := c) hcut
  have hkept : Kept s (s.halved c a l r (words ls) (words rs)) :=
    h.kept_halved hcut.left_new hcut.right_new
  have hdone := fun q hq => h.done_rooted (q := q) hcut hcap (hfresh _ _ hq)
  have hlive : (s.halved c a l r (words ls) (words rs)).tree.live =
    insert r (insert l s.tree.live) := rfl
  generalize s.halved c a l r (words ls) (words rs) = s₂ at *
  rw [← hlive] at hE hQ hdone
  unfold Call.makeRoot
  rw [wp_bind]
  refine wp_alloc hfresh ht.allocs_live (fun b hb => ht.free_mem hb) (by rw [ht.allocs]; omega)
    (fun hnone => hE s₂ hkept hnone) fun q hq => ?_
  have hkd : k' < d := by simpa using (hdone q hq).order.keys_sorted
  have hpage : ((s₂.take q).blank q false).tree.mem q =
      filled c false s₂.tree.smoSeq ([] ++ []) := by
    rw [List.append_nil, filled_nil]
    exact Function.update_self ..
  -- the right entry comes first
  rw [wp_bind, wp_initNode, wp_bind]
  refine wp_insertFresh (by simp [Call.blank]) hpage (by simp) (by simp) (by simp; omega) ?_
  rw [if_pos rfl, wp_bind]
  have hpage' : (((s₂.take q).blank q false).setPage q
      (filled c false s₂.tree.smoSeq ([] ++ (d, r) :: []))).tree.mem q =
        filled c false s₂.tree.smoSeq ([] ++ [(d, r)]) := mem_setPage_self _
  refine wp_insertFresh (by simp [Call.blank, Call.setPage, Tree.setPage]) hpage' (by simp)
    (by simpa using hkd) (by simpa using hcap) ?_
  rw [if_pos rfl, wp_bind, wp_fetch, wp_put, setPage_setPage]
  exact hQ q hq

end Rising
end Parent

end YwStorage.BTree

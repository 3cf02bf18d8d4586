import YwStorage.BTree.Find

/-!
The stamps of the inner pages. Whatever a call does, also one that gives up, an inner page that can
be reached was made under the present sequence of the tree or an earlier one.
-/
namespace YwStorage.BTree
open Programs Prog OrderedNode

variable {α : Type} {c : Config} {q fuel node a : ℕ} {I I' : ℕ → Prop} {t : Tree α} {s : Call α}
  {p : Page α} {r : α × ℕ} {supply : Finset ℕ → Option ℕ}

/-- An inner page, whose records lead to pages of `I`. -/
structure Inner (c : Config) (q : ℕ) (I : ℕ → Prop) (p : Page α) : Prop where
  stamp : p.smoSeq < q
  dense : p.body.used = p.entries.length * c.recordSize
  old : p.old = none
  children : ∀ e ∈ p.entries, I e.2

/-- The pages `I` that have been made are closed under the records of the inner ones, and only this
call holds locks. -/
structure Grounded (c : Config) (q : ℕ) (I : ℕ → Prop) (s : Call α) : Prop where
  seq : s.tree.smoSeq + 1 = q
  root : I s.tree.root
  inner : ∀ a, I a → (s.tree.mem a).isLeaf = false → Inner c q I (s.tree.mem a)
  locks : s.tree.locked ⊆ s.lockStack.toFinset

/-- The same with more pages. -/
def Growing (c : Config) (q : ℕ) (I : ℕ → Prop) (s : Call α) (P : (ℕ → Prop) → Prop) : Prop :=
  ∃ I', (∀ a, I a → I' a) ∧ Grounded c q I' s ∧ P I'

theorem Inner.mono (h : Inner c q I p) (hI : ∀ a, I a → I' a) : Inner c q I' p :=
  ⟨h.stamp, h.dense, h.old, fun e he => hI _ (h.children e he)⟩

section Page

/-- A record more, in any place. -/
theorem Inner.add {es : List (α × ℕ)} (h : Inner c q I p) (hr : I r.2)
    (hes : es.Perm (r :: p.entries)) :
    Inner c q I { p with body := ⟨es, p.body.used + c.recordSize⟩ } := by
  refine ⟨h.stamp, ?_, h.old, fun e he => ?_⟩
  · show p.body.used + c.recordSize = es.length * c.recordSize
    rw [h.dense, hes.length_eq, List.length_cons, Nat.succ_mul]
  · rcases List.mem_cons.mp (hes.mem_iff.mp he) with rfl | he
    · exact hr
    · exact h.children e he

theorem Inner.append (h : Inner c q I p) (hr : I r.2) : Inner c q I (p.append c r).2 := by
  unfold Page.append AbsPage.append
  split_ifs
  · exact h.add hr (List.perm_append_singleton r _)
  · exact h

variable [LinearOrder α]

theorem Inner.insert (h : Inner c q I p) (hr : I r.2) : Inner c q I (p.insert c r).2 := by
  unfold Page.insert AbsPage.insert
  split_ifs
  · refine h.add hr (List.perm_middle.trans ?_)
    rw [below_append_above]
  · exact h

theorem Inner.inplaceUpdate (h : Inner c q I p) (hr : I r.2) :
    Inner c q I (p.inplaceUpdate c r).2 := by
  unfold Page.inplaceUpdate AbsPage.update
  rcases hx : p.body.entries[(below Prod.fst r p.body.entries).length - 1]? with _ | x
  · exact h
  · simp only [if_true]
    refine ⟨h.stamp, ?_, h.old, fun e he => ?_⟩
    · show p.body.used = (p.entries.set _ r).length * c.recordSize
      rw [List.length_set]
      exact h.dense
    · rcases List.mem_or_eq_of_mem_set he with he | rfl
      · exact h.children e he
      · exact hr

theorem mem_of_get {key : α} {e : α × ℕ} (hfloor : p.floor key < p.entries.length)
    (hget : p.get (p.floor key) = some e) : e ∈ p.entries := by
  have hne : p.entries ≠ [] := List.ne_nil_of_length_pos (by omega)
  rw [Page.get, if_neg hne] at hget
  exact List.mem_of_getElem? hget

end Page

namespace Grounded

/-- A page that is made now. -/
theorem blank (h : Grounded c q I s) (node : ℕ) (isLeaf : Bool) :
    Grounded c q (fun a => I a ∨ a = node) (s.blank node isLeaf) := by
  refine ⟨h.seq, .inl h.root, fun b hb hleaf => ?_, fun b hb => ?_⟩
  · by_cases hbn : b = node
    · subst hbn
      simp only [Call.blank, Tree.setPage, Function.update_self]
      refine ⟨Nat.lt_of_succ_le h.seq.le, ?_, rfl, fun e he => ?_⟩
      · exact (Nat.zero_mul _).symm
      · cases he
    · simp only [Call.blank, Tree.setPage, Function.update_of_ne hbn] at hleaf ⊢
      exact (h.inner b (hb.resolve_right hbn) hleaf).mono fun _ => .inl
  · exact h.locks (Finset.mem_of_mem_erase hb)

theorem blank_kind {b : ℕ} {isLeaf : Bool}
    (h : b = node ∨ (s.tree.mem b).isLeaf = isLeaf) :
    ((s.blank node isLeaf).tree.mem b).isLeaf = isLeaf := by
  by_cases hb : b = node
  · simp [Call.blank, Tree.setPage, hb, Tree.blankPage]
  · simpa [Call.blank, Tree.setPage, hb] using h

theorem growing {P : (ℕ → Prop) → Prop} (h : Grounded c q I s) (hP : P I) : Growing c q I s P :=
  ⟨I, fun _ => id, h, hP⟩

end Grounded

/-- The leaves are the same pages. -/
def SameKinds (s s' : Call α) : Prop := ∀ a, (s'.tree.mem a).isLeaf = (s.tree.mem a).isLeaf

theorem SameKinds.trans {s' s'' : Call α} (h : SameKinds s s') (h' : SameKinds s' s'') :
    SameKinds s s'' := fun a => (h' a).trans (h a)

/-- A page gets a record that leads to a page of `I`, if it is an inner one. -/
theorem Grounded.write (h : Grounded c q I s) (hleaf : p.isLeaf = (s.tree.mem a).isLeaf)
    (hr : (s.tree.mem a).isLeaf = false → I r.2)
    (hp : I r.2 → Inner c q I (s.tree.mem a) → Inner c q I p) :
    Grounded c q I (s.setPage a p) ∧ SameKinds s (s.setPage a p) := by
  have hself : (s.setPage a p).tree.mem a = p := Function.update_self ..
  have hother : ∀ {b}, b ≠ a → (s.setPage a p).tree.mem b = s.tree.mem b := fun hb =>
    Function.update_of_ne hb _ _
  refine ⟨⟨h.seq, h.root, fun b hb hinner => ?_, h.locks⟩, fun b => ?_⟩
  · by_cases hba : b = a
    · subst hba
      rw [hself] at hinner ⊢
      rw [hleaf] at hinner
      exact hp (hr hinner) (h.inner b hb hinner)
    · rw [hother hba] at hinner ⊢
      exact h.inner b hb hinner
  · by_cases hba : b = a
    · rw [hba, hself, hleaf]
    · rw [hother hba]

theorem Growing.weaken {P : (ℕ → Prop) → Prop} (h : Growing c q I' s P) (hI : ∀ a, I a → I' a) :
    Growing c q I s P := by
  obtain ⟨I₂, hI₂, hg, hP⟩ := h
  exact ⟨I₂, fun a ha => hI₂ a (hI a ha), hg, hP⟩

section Calls

theorem wlp_alloc (h : Grounded c q I s) :
    Wlp (Call.alloc supply) s (fun _ s' => Grounded c q I s' ∧ s'.tree.mem = s.tree.mem)
      (Grounded c q I) := by
  simp only [Call.alloc, wlp_bind, wlp_fetch]
  split
  · exact ⟨h, rfl⟩
  · rw [wlp_bind, wlp_assert]
    intro _
    split_ifs <;> exact ⟨⟨h.seq, h.root, h.inner, h.locks⟩, rfl⟩

theorem wlp_free (h : Grounded c q I s) :
    Wlp (Call.free node) s (fun _ s' => Grounded c q I s' ∧ s'.tree.mem = s.tree.mem)
      (Grounded c q I) := by
  simp only [Call.free, wlp_bind, wlp_fetch, wlp_assert, wlp_put]
  intro _ _
  exact ⟨⟨h.seq, h.root, h.inner, h.locks⟩, trivial⟩

theorem wlp_lock (h : Grounded c q I s) :
    Wlp (Call.lock node) s (fun _ s' => Grounded c q I s' ∧ s'.tree.mem = s.tree.mem)
      (Grounded c q I) := by
  simp only [Call.lock, wlp_bind, wlp_fetch]
  split_ifs
  · rw [wlp_bind, wlp_assert]
    intro _
    refine ⟨⟨h.seq, h.root, h.inner, ?_⟩, rfl⟩
    show insert node s.tree.locked ⊆ (node :: s.lockStack).toFinset
    rw [List.toFinset_cons]
    exact Finset.insert_subset_insert _ h.locks
  · exact h

theorem wlp_copyLoop {target : ℕ} {rs : List (α × ℕ)} (h : Grounded c q I s)
    (hrs : (s.tree.mem target).isLeaf = false → ∀ r ∈ rs, I r.2) :
    Wlp (Call.copyLoop c target rs) s (fun _ s' => Grounded c q I s' ∧ SameKinds s s')
      (Grounded c q I) := by
  induction rs generalizing s with
  | nil => exact ⟨h, fun _ => rfl⟩
  | cons r rs ih =>
    simp only [Call.copyLoop, wlp_bind, wlp_fetch, wlp_assert]
    intro _
    have hw := h.write (p := ((s.tree.mem target).append c r).2) rfl
      (fun hl => hrs hl r List.mem_cons_self) fun hr hp => hp.append hr
    rcases hp : (s.tree.mem target).append c r with ⟨_ | _, p⟩
    · exact h
    · rw [hp] at hw
      obtain ⟨hg, hk⟩ := hw
      refine (ih hg fun hl r' hr' => ?_).mono (fun _ s' hs' => ⟨hs'.1, hk.trans hs'.2⟩) fun _ => id
      rw [hk target] at hl
      exact hrs hl r' (List.mem_cons_of_mem _ hr')

theorem wlp_copyNode {target first last : ℕ} (h : Grounded c q I s) (hnode : I node)
    (hkind : (s.tree.mem node).isLeaf = (s.tree.mem target).isLeaf) :
    Wlp (Call.copyNode c node target first last) s
      (fun _ s' => Grounded c q I s' ∧ SameKinds s s') (Grounded c q I) := by
  simp only [Call.copyNode, wlp_bind, wlp_fetch, wlp_assert]
  intro _
  refine wlp_copyLoop h fun hl r hr => ?_
  rw [← hkind] at hl
  exact (h.inner node hnode hl).children r (List.mem_of_mem_take (List.mem_of_mem_drop hr))

theorem wlp_getLeftMostKey {E : Call α → Prop} :
    Wlp (Call.getLeftMostKey fuel node) s (fun _ s' => s' = s) E := by
  simp only [Call.getLeftMostKey, wlp_bind, wlp_fetch]
  split
  · trivial
  · rfl

variable [LinearOrder α]

theorem insert_kind (p : Page α) : (p.insert c r).2.isLeaf = p.isLeaf := rfl

theorem wlp_insertLocked (h : Grounded c q I s) (hr : (s.tree.mem node).isLeaf = false → I r.2) :
    Wlp (Call.insertLocked c node r) s (fun _ s' => Grounded c q I s' ∧ SameKinds s s')
      (Grounded c q I) := by
  simp only [Call.insertLocked, wlp_bind, wlp_fetch, wlp_assert]
  intro _
  have hw := h.write (insert_kind _) hr fun hr' hp => hp.insert hr'
  rcases hp : (s.tree.mem node).insert c r with ⟨_ | _, p⟩
  · exact h
  · rw [hp] at hw
    exact hw

theorem wlp_insertRecord (h : Grounded c q I s) (hr : (s.tree.mem node).isLeaf = false → I r.2) :
    Wlp (Call.insertRecord c node r) s (fun _ s' => Grounded c q I s' ∧ SameKinds s s')
      (Grounded c q I) := by
  simp only [Call.insertRecord, wlp_bind, wlp_fetch]
  split_ifs
  · exact ⟨h, fun _ => rfl⟩
  · have hw := h.write (insert_kind _) hr fun hr' hp => hp.insert hr'
    rcases hp : (s.tree.mem node).insert c r with ⟨_ | _, p⟩
    · exact ⟨h, fun _ => rfl⟩
    · rw [hp] at hw
      exact hw

theorem wlp_inplaceUpdate (h : Grounded c q I s)
    (hr : (s.tree.mem node).isLeaf = false → I r.2) :
    Wlp (Call.inplaceUpdate c node r) s (fun _ s' => Grounded c q I s' ∧ SameKinds s s')
      (Grounded c q I) := by
  simp only [Call.inplaceUpdate, wlp_bind, wlp_fetch]
  split_ifs
  · exact h
  · have hw := h.write (p := ((s.tree.mem node).inplaceUpdate c r).2) rfl hr
      fun hr' hp => hp.inplaceUpdate hr'
    rcases hp : (s.tree.mem node).inplaceUpdate c r with ⟨_ | _, p⟩
    · exact h
    · rw [hp] at hw
      exact hw

theorem wlp_splitInto {l rt : ℕ} (h : Grounded c q I s) (hnode : I node)
    (hr : (s.tree.mem node).isLeaf = false → I r.2) :
    Wlp (Call.splitInto c fuel node r l rt) s
      (fun hs s' => Growing c q I s' fun I' => I' hs.left.2 ∧ I' hs.right.2)
      (fun s' => Growing c q I s' fun _ => True) := by
  have hI : ∀ a, I a → (I a ∨ a = l) ∨ a = rt := fun a ha => .inl (.inl ha)
  have hgrow : ∀ s' : Call α, Grounded c q (fun a => (I a ∨ a = l) ∨ a = rt) s' →
      Growing c q I s' fun _ => True := fun s' hg => ⟨_, hI, hg, trivial⟩
  rw [Call.splitInto, wlp_bind]
  refine (wlp_free h).mono (fun _ s₁ h₁ => ?_) fun _ hg => hg.growing trivial
  simp only [Call.initNode, wlp_bind, wlp_fetch, wlp_put]
  generalize hleaf : (s₁.tree.mem node).isLeaf = leaf
  have h₂ := (h₁.1.blank l leaf).blank rt leaf
  have hk₂ : ∀ b ∈ [node, l, rt],
      ((((s₁.blank l leaf).blank rt leaf).tree.mem b).isLeaf) = leaf := by
    simp only [List.forall_mem_cons]
    exact ⟨Grounded.blank_kind (.inr (Grounded.blank_kind (.inr hleaf))),
      Grounded.blank_kind (.inr (Grounded.blank_kind (.inl rfl))),
      Grounded.blank_kind (.inl rfl), by simp⟩
  refine (wlp_lock h₂).mono (fun _ s₃ h₃ => ?_) hgrow
  refine (wlp_lock h₃.1).mono (fun _ s₄ h₄ => ?_) hgrow
  have hk₄ : ∀ b ∈ [node, l, rt], (s₄.tree.mem b).isLeaf = leaf := by rwa [h₄.2, h₃.2]
  refine (wlp_copyNode h₄.1 (hI _ hnode) (by rw [hk₄ _ (by simp), hk₄ _ (by simp)])).mono
    (fun _ s₅ h₅ => ?_) hgrow
  have hk₅ : ∀ b ∈ [node, l, rt], (s₅.tree.mem b).isLeaf = leaf := fun b hb =>
    (h₅.2 b).trans (hk₄ b hb)
  refine (wlp_copyNode h₅.1 (hI _ hnode) (by rw [hk₅ _ (by simp), hk₅ _ (by simp)])).mono
    (fun _ s₆ h₆ => ?_) hgrow
  have hr₆ : ∀ b ∈ [node, l, rt], (s₆.tree.mem b).isLeaf = false →
      (I r.2 ∨ r.2 = l) ∨ r.2 = rt := by
    intro b hb hf
    rw [h₆.2 b, hk₅ b hb, ← hleaf, h₁.2] at hf
    exact hI _ (hr hf)
  refine wlp_getLeftMostKey.mono (fun rightKey s₇ hs₇ => ?_) hgrow
  subst hs₇
  have hinsert : ∀ target ∈ [node, l, rt], Wlp (do
      Call.insertLocked c target r
      let leftKey ← Call.getLeftMostKey fuel l
      return (⟨(leftKey.1, l), (rightKey.1, rt)⟩ : Call.Halves α)) s₇
      (fun hs s' => Growing c q I s' fun I' => I' hs.left.2 ∧ I' hs.right.2)
      (fun s' => Growing c q I s' fun _ => True) := by
    intro target htarget
    rw [wlp_bind]
    refine (wlp_insertLocked h₆.1 (hr₆ target htarget)).mono (fun _ s₈ h₈ => ?_) hgrow
    rw [wlp_bind]
    refine wlp_getLeftMostKey.mono (fun leftKey s₉ hs₉ => ?_) hgrow
    subst hs₉
    exact ⟨_, hI, h₈.1, .inl (.inr rfl), .inr rfl⟩
  split_ifs
  · exact hinsert rt (by simp)
  · exact hinsert l (by simp)

theorem wlp_splitNode (h : Grounded c q I s) (hnode : I node)
    (hr : (s.tree.mem node).isLeaf = false → I r.2) :
    Wlp (Call.splitNode c supply fuel node r) s
      (fun hs s' => Growing c q I s' fun I' => I' hs.left.2 ∧ I' hs.right.2)
      (fun s' => Growing c q I s' fun _ => True) := by
  have hfail : ∀ s' : Call α, Grounded c q I s' → Growing c q I s' fun _ => True :=
    fun s' hg => hg.growing trivial
  rw [Call.splitNode, wlp_bind]
  refine (wlp_alloc h).mono (fun newLeft s₁ h₁ => ?_) hfail
  rw [wlp_bind]
  refine (wlp_alloc h₁.1).mono (fun right s₂ h₂ => ?_) hfail
  rcases newLeft with _ | l
  · exact hfail _ h₂.1
  rcases right with _ | rt
  · exact hfail _ h₂.1
  refine wlp_splitInto h₂.1 hnode ?_
  rwa [h₂.2, h₁.2]

theorem wlp_makeRoot {hs : Call.Halves α} (h : Grounded c q I s) (hleft : I hs.left.2)
    (hright : I hs.right.2) :
    Wlp (Call.makeRoot c supply hs) s (fun _ s' => Growing c q I s' fun _ => True)
      (fun s' => Growing c q I s' fun _ => True) := by
  rw [Call.makeRoot, wlp_bind]
  refine (wlp_alloc h).mono (fun parent s₁ h₁ => ?_) fun _ hg => hg.growing trivial
  rcases parent with _ | parent
  · exact h₁.1.growing trivial
  have hI : ∀ a, I a → I a ∨ a = parent := fun _ => .inl
  have hblank := h₁.1.blank parent false
  have hgrow : ∀ s' : Call α, Grounded c q (fun a => I a ∨ a = parent) s' →
      Growing c q I s' fun _ => True := fun s' hg => ⟨_, hI, hg, trivial⟩
  simp only [Call.initNode, wlp_bind, wlp_fetch, wlp_put]
  refine (wlp_insertRecord hblank fun _ => hI _ hright).mono (fun ok s₂ h₂ => ?_) hgrow
  split_ifs
  · rw [wlp_bind]
    refine (wlp_insertRecord h₂.1 fun _ => hI _ hleft).mono (fun ok s₃ h₃ => ?_) hgrow
    split_ifs
    · refine hgrow _ ⟨h₃.1.seq, .inr rfl, h₃.1.inner, h₃.1.locks⟩
    · exact hgrow _ h₃.1
  · exact hgrow _ h₂.1

theorem wlp_splitInsert {stack : List ℕ} (h : Grounded c q I s) (hnode : I node)
    (hstack : ∀ b ∈ stack, I b) (hr : (s.tree.mem node).isLeaf = false → I r.2) :
    Wlp (Call.splitInsert c supply fuel stack node r) s
      (fun _ s' => Growing c q I s' fun _ => True) (fun s' => Growing c q I s' fun _ => True) := by
  induction stack generalizing I s node r
  all_goals
    rw [Call.splitInsert, wlp_bind]
    refine (wlp_splitNode h hnode hr).mono (fun hs s₁ h₁ => ?_) fun _ => id
    obtain ⟨I₁, hI₁, hg₁, hl, hrt⟩ := h₁
  case nil =>
    exact (wlp_makeRoot hg₁ hl hrt).mono (fun _ _ hg => hg.weaken hI₁) fun _ hg => hg.weaken hI₁
  case cons parent stack ih =>
    have hgrow : ∀ s' : Call α, Grounded c q I₁ s' → Growing c q I s' fun _ => True := fun s' hg =>
      ⟨I₁, hI₁, hg, trivial⟩
    rw [wlp_bind]
    refine (wlp_inplaceUpdate hg₁ fun _ => hl).mono (fun _ s₂ h₂ => ?_) hgrow
    rw [wlp_bind]
    refine (wlp_insertRecord h₂.1 fun _ => hrt).mono (fun ok s₃ h₃ => ?_) hgrow
    split_ifs
    · exact hgrow _ h₃.1
    · rw [wlp_bind]
      refine (wlp_lock h₃.1).mono (fun _ s₄ h₄ => ?_) hgrow
      exact (ih h₄.1 (hI₁ _ (hstack _ List.mem_cons_self))
        (fun b hb => hI₁ b (hstack b (List.mem_cons_of_mem _ hb))) fun _ => hrt).mono
        (fun _ _ hg => hg.weaken hI₁) fun _ hg => hg.weaken hI₁

theorem wlp_traverseLoop {key : α} {i cursor : ℕ} {stack : List ℕ} (h : Grounded c q I s)
    (hcursor : I cursor) (hstack : ∀ b ∈ stack, I b) :
    Wlp (Call.traverseLoop key i cursor stack) s
      (fun l s' => Grounded c q I s' ∧ (∀ b ∈ l, I b) ∧
        ∀ b ∈ l.head?, (s'.tree.mem b).isLeaf = true) (Grounded c q I) := by
  induction i generalizing cursor stack with
  | zero => exact h
  | succ i ih =>
    have hcons : ∀ b ∈ cursor :: stack, I b := List.forall_mem_cons.mpr ⟨hcursor, hstack⟩
    rw [Call.traverseLoop, wlp_bind, wlp_fetch]
    rcases hleaf : (s.tree.mem cursor).isLeaf with _ | _
    · simp only [hleaf, Bool.false_eq_true, if_false, wlp_bind, wlp_assert]
      intro hfloor
      split_ifs
      · rcases hget : (s.tree.mem cursor).get ((s.tree.mem cursor).floor key) with _ | e
        · trivial
        · rw [wlp_bind, wlp_assert]
          intro _
          refine ih ?_ hcons
          exact (h.inner cursor hcursor hleaf).children e (mem_of_get hfloor hget)
      · exact h
    · simp only [hleaf, if_true, wlp_bind]
      refine (wlp_lock h).mono (fun _ s₁ h₁ => ?_) fun _ => id
      rw [wlp_assert]
      intro _
      split_ifs
      · refine ⟨h₁.1, hcons, ?_⟩
        simp [h₁.2, hleaf]
      · exact h₁.1

theorem wlp_smoInsert (h : Grounded c q I s) :
    Wlp (Call.smoInsert c supply fuel r) s (fun _ s' => Growing c q I s' fun _ => True)
      (fun s' => Growing c q I s' fun _ => True) := by
  rw [Call.smoInsert, wlp_bind, wlp_fetch, wlp_bind]
  refine (wlp_traverseLoop h h.root (by simp)).mono (fun l s₁ h₁ => ?_) fun _ hg =>
    hg.growing trivial
  obtain ⟨hg, hmem, hleaf⟩ := h₁
  cases l with
  | nil => exact hg.growing trivial
  | cons cursor stack =>
    rw [List.forall_mem_cons] at hmem
    refine wlp_splitInsert hg hmem.1 hmem.2 fun hinner => ?_
    rw [hleaf cursor rfl] at hinner
    cases hinner

end Calls
end YwStorage.BTree

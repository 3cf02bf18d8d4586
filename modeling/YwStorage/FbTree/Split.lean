import YwStorage.FbTree.Insert

/-! Splitting a full node, and with it the full nodes above it. -/
namespace YwStorage.FbTree
open MultiTree SortedMap

variable {alloc : Finset ℕ → ℕ} {s : Fb} {R : Multiset ℕ} {n a k kp kr p l r np : ℕ}

theorem splitPoint_spec {idx : ℕ} (h : idx < 128) :
    0 < (splitPoint idx).1 ∧ (splitPoint idx).1 < 128 ∧
      ((splitPoint idx).2 = true ↔ (splitPoint idx).1 ≤ idx) := by
  unfold splitPoint
  split_ifs with hlast hfirst
  · subst hlast
    decide
  · subst hfirst
    decide
  · exact ⟨show 0 < 64 by decide, show 64 < 128 by decide, decide_eq_true_iff⟩

section Order
variable {P : ℕ → Prop} {t : Node ℕ ℕ n} {pre post es₁ es₂ : List (ℕ × Node ℕ ℕ n)}
  {e : ℕ × Node ℕ ℕ n}
  {ppre ppost : List (ℕ × Node ℕ ℕ (n + 1))} {up : Path ℕ ℕ (n + 2)}

/-- The first key of the right half separates the halves in the parent. -/
theorem ordered_halves
    (h : Ordered True unmarked P (plug (.step p ppre kp ppost up) (node a (es₁ ++ e :: es₂))).2)
    (hne : es₁ ≠ []) (l r np : ℕ) :
    Ordered True unmarked P
      (plug up (node np (ppre ++ (kp, node l es₁) :: (e.1, node r (e :: es₂)) :: ppost))).2 := by
  have hup : Ordered True unmarked P
      (plug up (node p (ppre ++ (kp, node a (es₁ ++ e :: es₂)) :: ppost))).2 := h
  have hchild := hup.hole.child
  obtain ⟨hl, hr⟩ := hchild.split hne (l := l) (r := r) markIn_unmarked markIn_unmarked
  obtain ⟨f, fs, rfl⟩ := List.exists_cons_of_ne_nil hne
  have hkf : kp ≤ f.1 := (hchild.key_mem (e := f) (by simp)).lower (Or.inl trivial)
  have hfe : f.1 < e.1 := List.rel_of_pairwise_cons hchild.keys_sorted (by simp)
  have hjoin := hup.hole.join (hkf.trans_lt hfe) (hup.hole.region_self (Or.inl trivial))
    (hchild.key_mem (e := e) (by simp)) (hl.mono fun x hx => ⟨hx.1, hx.1.lower, hx.2⟩) hr
  exact hup.replug (fun _ _ => rfl) (hjoin.rename markIn_unmarked)

/-- The hole stays at its place between the data. -/
structure Sited (old new : Path ℕ ℕ n) : Prop where
  before : new.before = old.before
  after : new.after = old.after
  inner : ∀ t, new.inner t = old.inner t

theorem Sited.refl (path : Path ℕ ℕ n) : Sited path path := ⟨rfl, rfl, fun _ => rfl⟩

theorem Sited.trans {p₁ p₂ p₃ : Path ℕ ℕ n} (h : Sited p₁ p₂) (h' : Sited p₂ p₃) : Sited p₁ p₃ :=
  ⟨h'.before.trans h.before, h'.after.trans h.after, fun t => (h'.inner t).trans (h.inner t)⟩

theorem Sited.step {up up' : Path ℕ ℕ (n + 1)} (h : Sited up up') :
    Sited (.step a pre k post up) (.step a pre k post up') := by
  refine ⟨?_, ?_, fun _ => rfl⟩
  · rw [Path.before, h.before, Path.before]
  · rw [Path.after, h.after, Path.after]

/-- The hole takes no fewer keys, whether or not first entries bound what is below them. -/
def Roomier (P : ℕ → Prop) (old new : Path ℕ ℕ n) : Prop :=
  ∀ low x, MultiTree.room low P old x → MultiTree.room low P new x

theorem Roomier.step {up up' : Path ℕ ℕ (n + 1)} (h : Roomier P up up') :
    Roomier P (.step a pre k post up) (.step a pre k post up') :=
  fun low _ hx => hx.mono (h low)

/-- The cursor goes to the right half. -/
theorem sited_right :
    Sited (.step a (es₁ ++ pre) k post (.step p ppre kp ppost up))
      (.step r pre k post (.step np (ppre ++ [(kp, node l es₁)]) kr ppost up)) := by
  refine ⟨?_, rfl, fun _ => rfl⟩
  simp [Path.before]

theorem roomier_right (hes : pre ++ (k, t) :: post = e :: es₂) (hne : es₁ ≠ [])
    (hsorted : (pre ++ (k, t) :: post).Pairwise fun e f => e.1 < f.1) :
    Roomier P (.step a (es₁ ++ pre) k post (.step p ppre kp ppost up))
      (.step r pre k post (.step np (ppre ++ [(kp, node l es₁)]) e.1 ppost up)) := by
  have hek : e.1 ≤ k := by
    cases pre with
    | nil =>
      simp only [List.nil_append, List.cons.injEq] at hes
      rw [← hes.1]
    | cons f fs =>
      simp only [List.cons_append, List.cons.injEq] at hes
      rw [← hes.1]
      have hfk : f.1 < k := List.pairwise_cons.mp hsorted |>.1 (k, t) (by simp)
      exact hfk.le
  intro low x hx
  have hkx : k ≤ x := hx.lower (Or.inr (by simp [hne]))
  exact ⟨⟨hx.inside.inside, fun _ => hek.trans hkx, hx.inside.upper⟩, fun _ => hkx, hx.upper⟩

/-- The cursor stays in the left half. -/
theorem sited_left :
    Sited (.step a pre k (post ++ e :: es₂) (.step p ppre kp ppost up))
      (.step l pre k post (.step np ppre kp ((e.1, node r (e :: es₂)) :: ppost) up)) := by
  refine ⟨rfl, ?_, fun _ => rfl⟩
  simp [Path.after]

theorem roomier_left :
    Roomier P (.step a pre k (post ++ e :: es₂) (.step p ppre kp ppost up))
      (.step l pre k post (.step np ppre kp ((e.1, node r (e :: es₂)) :: ppost) up)) := by
  intro low x hx
  have hu := hx.upper
  simp only [List.forall_mem_append, List.forall_mem_cons] at hu
  exact ⟨⟨hx.inside.inside, hx.inside.lower, List.forall_mem_cons.mpr ⟨hu.2.1, hx.inside.upper⟩⟩,
    hx.lower, hu.1⟩

/-- The cursor after a split. -/
def splitCursor (l r idx : ℕ) : ℕ × ℕ :=
  if (splitPoint idx).2 then (r, idx - (splitPoint idx).1) else (l, idx)

/-- The stack after a split. -/
def splitStack (l r np idx pidx : ℕ) (up : List (ℕ × ℕ)) : List (ℕ × ℕ) :=
  splitCursor l r idx :: (np, if (splitPoint idx).2 then pidx + 1 else pidx) :: up

/-- In which half the entry of the cursor is. -/
theorem cursor_cases {x : ℕ × Node ℕ ℕ n} (hsplit : pre ++ x :: post = es₁ ++ e :: es₂)
    (hlen : pre.length < 128) (hsp : es₁.length = (splitPoint pre.length).1) :
    ((splitPoint pre.length).2 = true ∧ ∃ pre', pre = es₁ ++ pre' ∧ pre' ++ x :: post = e :: es₂) ∨
      (splitPoint pre.length).2 ≠ true ∧ ∃ post', es₁ = pre ++ x :: post' ∧
        post = post' ++ e :: es₂ := by
  obtain ⟨-, -, hmv⟩ := splitPoint_spec hlen
  rw [← hsp] at hmv
  rcases split_cases hsplit with ⟨cs, hpre, hes⟩ | ⟨hpre, hes, hpost⟩ | ⟨cs, hes, hpost⟩
  · exact Or.inl ⟨hmv.mpr (by simp [hpre]), e :: cs, hpre, by rw [hes, List.cons_append]⟩
  · exact Or.inl ⟨hmv.mpr (by simp [hpre]), [], by simp [hpre], by rw [hes, hpost, List.nil_append]⟩
  · refine Or.inr ⟨?_, cs, hes, hpost⟩
    rw [Ne, hmv, hes]
    simp

/-- The same cursor in the tree with both halves. -/
theorem focus_halves (hsplit : pre ++ (k, t) :: post = es₁ ++ e :: es₂)
    (hlen : pre.length + post.length + 1 = 128) (hsp : es₁.length = (splitPoint pre.length).1)
    (up : Path ℕ ℕ (n + 2)) (ppre ppost : List (ℕ × Node ℕ ℕ (n + 1))) (kp a p l r np : ℕ) :
    ∃ path : Path ℕ ℕ n,
      path.positions = splitStack l r np pre.length ppre.length up.positions ∧
      plug path t =
        plug up (node np (ppre ++ (kp, node l es₁) :: (e.1, node r (e :: es₂)) :: ppost)) ∧
      Sited (.step a pre k post (.step p ppre kp ppost up)) path ∧
      ((pre ++ (k, t) :: post).Pairwise (fun e f => e.1 < f.1) →
        Roomier P (.step a pre k post (.step p ppre kp ppost up)) path) ∧
      0 < path.width ∧ path.width < 128 ∧ path.length = up.length + 2 := by
  have hpos := (splitPoint_spec (show pre.length < 128 by omega)).1
  rw [← hsp] at hpos
  rcases cursor_cases hsplit (by omega) hsp with ⟨hmv, pre', rfl, hes⟩ | ⟨hmv, post', rfl, rfl⟩
  · refine ⟨.step r pre' k post (.step np (ppre ++ [(kp, node l es₁)]) e.1 ppost up), ?_, ?_,
      sited_right, fun hsorted => ?_, ?_, ?_, rfl⟩
    · rw [splitStack, splitCursor, if_pos hmv, if_pos hmv, ← hsp]
      simp [Path.positions]
    · rw [plug_step, plug_step, hes]
      simp
    · rw [List.append_assoc] at hsorted
      exact roomier_right hes (List.ne_nil_of_length_pos hpos)
        (List.pairwise_append.mp hsorted).2.1
    · simp [Path.width]
    · rw [List.length_append] at hlen
      simp only [Path.width]
      omega
  · refine ⟨.step l pre k post' (.step np ppre kp ((e.1, node r (e :: es₂)) :: ppost) up), ?_, rfl,
      sited_left, fun _ => roomier_left, ?_, ?_, rfl⟩
    · rw [splitStack, splitCursor, if_neg hmv, if_neg hmv]
      rfl
    · simp [Path.width]
    · simp only [List.length_append, List.length_cons] at hlen
      simp only [Path.width]
      omega

/-- The halves in the parent have no other keys than the node had. -/
theorem allKeys_halves
    (h : AllKeys P (plug (.step p ppre kp ppost up) (node a (es₁ ++ e :: es₂))).2) (l r np : ℕ) :
    AllKeys P
      (plug up (node np (ppre ++ (kp, node l es₁) :: (e.1, node r (e :: es₂)) :: ppost))).2 := by
  obtain ⟨hnode, hppre, hkp, hppost, hup⟩ := allKeys_plug.mp h
  rw [allKeys_node, List.forall_mem_append, List.forall_mem_cons] at hnode
  refine allKeys_plug.mpr ⟨?_, hup⟩
  rw [allKeys_node, List.forall_mem_append, List.forall_mem_cons, List.forall_mem_cons]
  exact ⟨hppre, ⟨hkp, hnode.1⟩, ⟨hnode.2.1.1, List.forall_mem_cons.mpr hnode.2⟩, hppost⟩

end Order

section Memory
variable {pre post es₁ es₂ : List (ℕ × Node ℕ ℕ n)} {e : ℕ × Node ℕ ℕ n}
  {ppre ppost : List (ℕ × Node ℕ ℕ (n + 1))} {up : Path ℕ ℕ (n + 2)}

/-- A clone of the parent takes the right half in, and its copy of the old entry is redirected to
the left half. -/
theorem clone_redirect {us vs : List (ℕ × ℕ)} {b : ℕ} (ups : List (ℕ × ℕ)) (l r kr : ℕ)
    (ha : a ∈ s.live) (hfree : s.freeNode.length < 8)
    (hp : Fits (s.mem p) (us ++ (k, a) :: vs)) (hlen : us.length + vs.length + 1 < 128) :
    ∃ s₂, (({ s with live := insert b s.live } : Fb).write b
        (insertSlot (s.mem p) (s.mem b) (us.length + 1) kr r)).replaceChild
          ((b, us.length) :: ups) a l = some s₂ ∧
      Fits (s₂.mem b) (us ++ (k, l) :: (kr, r) :: vs) ∧ (∀ x, x ≠ b → s₂.mem x = s.mem x) ∧
      s₂.root = s.root ∧ s₂.level = s.level ∧ s₂.live = insert b s.live ∧
      s₂.freeNode = s.freeNode ++ [a] := by
  have hclone : Fits (insertSlot (s.mem p) (s.mem b) (us.length + 1) kr r)
      (us ++ (k, a) :: (kr, r) :: vs) := by
    have hp' : Fits (s.mem p) ((us ++ [(k, a)]) ++ vs) := by simpa using hp
    have := hp'.insert (s.mem b) kr r (by simp; omega)
    simpa using this
  generalize insertSlot (s.mem p) (s.mem b) (us.length + 1) kr r = nd at hclone
  refine ⟨{ s with live := insert b s.live, freeNode := s.freeNode ++ [a],
                   mem := Function.update s.mem b (nd.setChild us.length l) }, ?_, ?_, ?_, rfl, rfl,
    rfl, rfl⟩
  · simp [Fb.replaceChild, Fb.write, Fb.pushFreeNode, hclone.child_at, ha, hfree]
  · simpa using hclone.setChild l
  · intro x hx
    simp [hx]

/-- Both halves are ready: the parent is replaced by a clone that has them. -/
theorem split_attach (hfresh : alloc s.live ∉ s.live)
    (h : Shape s (l ::ₘ r ::ₘ R) (plug (.step p ppre kp ppost up) (node a (es₁ ++ e :: es₂))))
    (hl : Fits (s.mem l) (words es₁)) (hr : Fits (s.mem r) (words (e :: es₂))) (hne : es₁ ≠ [])
    (hlen : ppre.length + ppost.length + 1 < 128) (hfree : s.freeNode.length < 7) :
    ∃ np s₁ s₂ s₃, s.cloningAndInsert alloc p ppre.length e.1 r = some (np, s₁) ∧
      s₁.replaceChild ((np, ppre.length) :: up.positions) a l = some s₂ ∧
      s₂.replaceChild up.positions p np = some s₃ ∧
      Shape s₃ R
        (plug up (node np (ppre ++ (kp, node l es₁) :: (e.1, node r (e :: es₂)) :: ppost))) ∧
      s₃.freeNode.length = s.freeNode.length + 2 ∧ s₃.live.card = s.live.card + 1 ∧
      ∀ b ∈ R, s₃.mem b = s.mem b := by
  obtain ⟨haround, ⟨-, hes⟩, hc⟩ := shape_plug.mp h
  obtain ⟨⟨hp, -⟩, hppre, hppost, -⟩ := haround.linked
  simp only [addrs_node, Path.addrs, addrsOf_append, addrsOf_cons] at hc
  have hin : ∀ x, x ∈ l ::ₘ r ::ₘ R + ({a} + (addrsOf es₁ + (addrs e.2 + addrsOf es₂)) +
      ({p} + addrsOf ppre + addrsOf ppost + up.addrs)) → x ∈ s.live := fun x hx =>
    Multiset.mem_of_le hc (Multiset.mem_cons_of_mem (Multiset.mem_add.mpr (Or.inl hx)))
  simp only [Multiset.mem_add, Multiset.mem_cons, Multiset.mem_singleton] at hin
  have hpnil : p ≠ fbNilNode := h.ne_nil (by simp [addrs_plug, addrs_node])
  have hfresh' : ∀ x ∈ s.live, x ≠ alloc s.live := fun x hx he => hfresh (he ▸ hx)
  obtain ⟨s₂, hrep₂, hnew, hmem₂, hroot₂, hlevel₂, hlive₂, hfree₂⟩ :=
    clone_redirect (b := alloc s.live) up.positions l r e.1 (hin a (by simp)) (by omega) hp
      (by simpa using hlen)
  rw [length_words] at hrep₂
  have hold : ∀ x ∈ s.live, s₂.mem x = s.mem x := fun x hx => hmem₂ x (hfresh' x hx)
  have hlink : Linked (Holds s₂) (node (alloc s.live)
      (ppre ++ (kp, node l es₁) :: (e.1, node r (e :: es₂)) :: ppost)) := by
    have hkeep : ∀ {m : ℕ} {t : Node ℕ ℕ m}, Linked (Holds s) t → (∀ x ∈ addrs t, x ∈ s.live) →
        Linked (Holds s₂) t := fun ht hx => linked_congr ht fun x hxt => hold x (hx x hxt)
    have hsub : ∀ {m : ℕ} {f : ℕ × Node ℕ ℕ m} {fs : List (ℕ × Node ℕ ℕ m)} {x : ℕ}, f ∈ fs →
        x ∈ addrs f.2 → x ∈ addrsOf fs := fun hf hx => Multiset.mem_of_le (addrs_le_addrsOf hf) hx
    rw [List.forall_mem_append, List.forall_mem_cons] at hes
    refine ⟨⟨by simpa using hnew, by simp⟩, ?_⟩
    simp only [List.forall_mem_append, List.forall_mem_cons]
    refine ⟨fun f hf => hkeep (hppre f hf) fun x hx => hin x ?_, ⟨⟨?_, ?_⟩, fun f hf => ?_⟩,
      ⟨⟨?_, ?_⟩, ?_⟩, fun f hf => hkeep (hppost f hf) fun x hx => hin x ?_⟩
    · simp [hsub hf hx]
    · rwa [hold l (hin l (by simp))]
    · simpa [words] using hne
    · exact hkeep (hes.1 f hf) fun x hx => hin x (by simp [hsub hf hx])
    · rwa [hold r (hin r (by simp))]
    · simp
    · rw [List.forall_mem_cons]
      refine ⟨hkeep hes.2.1 fun x hx => hin x (by simp [hx]), fun f hf => ?_⟩
      exact hkeep (hes.2.2 f hf) fun x hx => hin x (by simp [hsub hf hx])
    · simp [hsub hf hx]
  have hcount : fbNilNode ::ₘ (R + (addrs (node (alloc s.live)
      (ppre ++ (kp, node l es₁) :: (e.1, node r (e :: es₂)) :: ppost)) + up.addrs) +
      (s₂.freeNode + {p})) ≤ s₂.live.val := by
    rw [hlive₂, hfree₂, Finset.insert_val_of_notMem hfresh]
    refine le_trans (le_of_eq ?_) (Multiset.cons_le_cons (alloc s.live) hc)
    simp only [addrs_node, addrsOf_append, addrsOf_cons, ← Multiset.coe_add,
      Multiset.coe_singleton, ← Multiset.singleton_add]
    abel
  have haround₂ : Around s₂ up p := haround.parent.congr hroot₂ hlevel₂ fun x hx =>
    hold x (hin x (by simp [hx]))
  obtain ⟨s₃, hrep₃, hshape, hfree₃, hlive₃, hmem₃⟩ := haround₂.swap
    (by rw [hlive₂]; exact Finset.mem_insert_of_mem (hin p (by simp)))
    (by rw [hfree₂, List.length_append, List.length_singleton]; omega) hlink hcount
  refine ⟨_, _, s₂, s₃, cloningAndInsert_eq hpnil (by omega), hrep₂, hrep₃, hshape, ?_, ?_, ?_⟩
  · rw [hfree₃, hfree₂]
    simp
  · rw [hlive₃, hlive₂, Finset.card_insert_of_notMem hfresh]
  · intro b hb
    rw [hmem₃ b ?_, hold b (hin b (by simp [hb]))]
    intro hbu
    have hd := Multiset.nodup_of_le hcount s₂.live.nodup
    simp only [Multiset.nodup_cons, Multiset.nodup_add, Multiset.disjoint_add_right] at hd
    exact Multiset.disjoint_left.mp hd.2.1.2.2.2 hb hbu

/-- The memory after `fb_split_node` has filled both halves. -/
def writeHalves (alloc : Finset ℕ → ℕ) (s : Fb) (fbn splitIdx : ℕ) : Fb :=
  let left := alloc s.live
  let s₁ := ({ s with live := insert left s.live } : Fb).write left
    ((fbCopyNode (s.mem fbn) 0 splitIdx (s.mem left) 0).resetNode splitIdx)
  let right := alloc s₁.live
  ({ s₁ with live := insert right s₁.live } : Fb).write right
    ((fbCopyNode (s.mem fbn) splitIdx (128 - splitIdx) (s.mem right) 0).resetNode (128 - splitIdx))

/-- The halves are ready and the tree has not changed yet. -/
theorem writeHalves_spec {up : Path ℕ ℕ (n + 1)} (hfresh : ∀ live, alloc live ∉ live)
    (h : Shape s R (plug up (node a (es₁ ++ e :: es₂))))
    (hlen : es₁.length + (e :: es₂).length = 128) :
    ∃ l r, l = alloc s.live ∧ r = alloc (insert l s.live) ∧
      Shape (writeHalves alloc s a es₁.length) (l ::ₘ r ::ₘ R)
        (plug up (node a (es₁ ++ e :: es₂))) ∧
      Fits ((writeHalves alloc s a es₁.length).mem l) (words es₁) ∧
      Fits ((writeHalves alloc s a es₁.length).mem r) (words (e :: es₂)) ∧
      (∀ b ∈ s.live, (writeHalves alloc s a es₁.length).mem b = s.mem b) ∧
      (writeHalves alloc s a es₁.length).freeNode = s.freeNode ∧
      (writeHalves alloc s a es₁.length).live.card = s.live.card + 2 := by
  obtain ⟨hf, -⟩ := h.tree.1
  rw [words_append] at hf
  have hl := hfresh s.live
  have hr := hfresh (insert (alloc s.live) s.live)
  have hne : alloc s.live ≠ alloc (insert (alloc s.live) s.live) := fun he =>
    hr (he ▸ Finset.mem_insert_self _ _)
  refine ⟨_, _, rfl, rfl, ?_, ?_, ?_, ?_, rfl, ?_⟩
  · have := (h.create hl ((fbCopyNode (s.mem a) 0 es₁.length (s.mem (alloc s.live)) 0).resetNode
      es₁.length)).create hr ((fbCopyNode (s.mem a) es₁.length (128 - es₁.length)
        (s.mem (alloc (insert (alloc s.live) s.live))) 0).resetNode (128 - es₁.length))
    rw [Multiset.cons_swap] at this
    exact this
  · have := hf.left (s.mem (alloc s.live))
    rw [length_words] at this
    simpa [writeHalves, Fb.write, hne] using this
  · have := hf.right (s.mem (alloc (insert (alloc s.live) s.live))) (by simpa using hlen)
    rw [length_words] at this
    simpa [writeHalves, Fb.write] using this
  · intro b hb
    have hbl : b ≠ alloc s.live := fun he => hl (he ▸ hb)
    have hbr : b ≠ alloc (insert (alloc s.live) s.live) := fun he =>
      hr (he ▸ Finset.mem_insert_of_mem hb)
    simp [writeHalves, Fb.write, hbl, hbr]
  · show (insert (alloc (insert (alloc s.live) s.live)) (insert (alloc s.live) s.live)).card = _
    rw [Finset.card_insert_of_notMem hr, Finset.card_insert_of_notMem hl]

section Steps
variable {i pi p₁ i₁ : ℕ} {ups ups₁ : List (ℕ × ℕ)} {s₄ s₅ s₆ s₇ s₈ : Fb}

theorem guard_bind {q : Prop} [Decidable q] {α : Type} (h : q) (f : Unit → Option α) :
    (guard q >>= f) = f () := by
  simp [guard, h]

theorem fbSplitNode_root (hfull : (s.mem a).isFullNode) (hl : l = alloc s.live)
    (hr : r = alloc (insert l s.live)) (hs₄ : s₄ = writeHalves alloc s a (splitPoint i).1)
    (hcur : (s₄.mem (splitCursor l r i).1).key (splitCursor l r i).2 ≠ fbNilKey)
    (hroot : s₄.makeNewRoot alloc fbLeftMostKey l ((s₄.mem r).key 0) r = some (np, s₅)) :
    fbSplitNode alloc s [(a, i)] = some (s₅, splitStack l r np i 0 []) := by
  subst hl hr hs₄
  rw [fbSplitNode, guard_bind hfull]
  refine (guard_bind hcur _).trans ?_
  refine (congrArg (· >>= _) hroot).trans ?_
  rfl

theorem fbSplitNode_inner (hfull : (s.mem a).isFullNode) (hl : l = alloc s.live)
    (hr : r = alloc (insert l s.live)) (hs₄ : s₄ = writeHalves alloc s a (splitPoint i).1)
    (hcur : (s₄.mem (splitCursor l r i).1).key (splitCursor l r i).2 ≠ fbNilKey)
    (hparent : (if (s₄.mem p).isFullNode then fbSplitNode alloc s₄ ((p, pi) :: ups)
      else some (s₄, (p, pi) :: ups)) = some (s₅, (p₁, i₁) :: ups₁))
    (hchild : (s₅.mem p₁).child i₁ = a)
    (hclone : s₅.cloningAndInsert alloc p₁ i₁ ((s₄.mem r).key 0) r = some (np, s₆))
    (hredir : s₆.replaceChild ((np, i₁) :: ups₁) a l = some s₇)
    (hswap : s₇.replaceChild ups₁ p₁ np = some s₈) :
    fbSplitNode alloc s ((a, i) :: (p, pi) :: ups) = some (s₈, splitStack l r np i i₁ ups₁) := by
  subst hl hr hs₄
  rw [fbSplitNode, guard_bind hfull]
  refine (guard_bind hcur _).trans ?_
  refine (congrArg (· >>= _) hparent).trans ?_
  refine (guard_bind hchild _).trans ?_
  refine (congrArg (· >>= _) hclone).trans ?_
  refine (congrArg (· >>= _) hredir).trans ?_
  refine (congrArg (· >>= _) hswap).trans ?_
  rfl

end Steps

theorem splitCursor_key {t : Node ℕ ℕ n} (hl : Fits (s.mem l) (words es₁))
    (hr : Fits (s.mem r) (words (e :: es₂))) (hsplit : pre ++ (k, t) :: post = es₁ ++ e :: es₂)
    (hlen : pre.length < 128) (hsp : es₁.length = (splitPoint pre.length).1) :
    (s.mem (splitCursor l r pre.length).1).key (splitCursor l r pre.length).2 = k := by
  rw [splitCursor]
  rcases cursor_cases hsplit hlen hsp with ⟨hmv, pre', hpre, hes⟩ | ⟨hmv, post', hes, -⟩
  · rw [if_pos hmv, ← hsp, hpre, List.length_append, Nat.add_sub_cancel_left]
    rw [← hes, words_append, words_cons] at hr
    rw [← length_words, hr.key_at]
  · rw [if_neg hmv]
    rw [hes, words_append, words_cons] at hl
    rw [← length_words, hl.key_at]

end Memory

/-- All nodes of the path are full. -/
def allFull : {n : ℕ} → Path ℕ ℕ n → Bool
  | _, .top => true
  | _, .step _ pre _ post up => pre.length + post.length + 1 == fbSlotMax && allFull up

/-- The full nodes from the hole up to the first that is not full. -/
def fullRun : {n : ℕ} → Path ℕ ℕ n → ℕ
  | _, .top => 0
  | _, .step _ pre _ post up =>
    if pre.length + post.length + 1 = fbSlotMax then fullRun up + 1 else 0

theorem fullRun_le (path : Path ℕ ℕ n) : fullRun path + (!allFull path).toNat ≤ path.length := by
  induction path with
  | top => simp [fullRun, allFull, Path.length]
  | step a pre k post up ih =>
    rw [fullRun, allFull, Path.length]
    split_ifs with hfull
    · rw [beq_iff_eq.mpr hfull, Bool.true_and]
      omega
    · rw [beq_eq_false_iff_ne.mpr hfull, Bool.false_and]
      simp

theorem fullRun_of_allFull {path : Path ℕ ℕ n} (h : allFull path = true) :
    fullRun path = path.length := by
  induction path with
  | top => rfl
  | step a pre k post up ih =>
    rw [allFull, Bool.and_eq_true, beq_iff_eq] at h
    rw [fullRun, if_pos h.1, ih h.2, Path.length]

/-- The list of nodes to free is long enough for trees of five levels. -/
theorem freeNode_room (path : Path ℕ ℕ n) (h : path.length ≤ 5) :
    0 + 2 * fullRun path ≤ 8 + 2 * (allFull path).toNat := by
  have hrun := fullRun_le path
  cases hall : allFull path with
  | false =>
    rw [hall] at hrun
    simp only [Bool.not_false, Bool.toNat_true] at hrun
    omega
  | true =>
    rw [hall] at hrun
    simp only [Bool.not_true, Bool.toNat_false] at hrun
    simp only [Bool.toNat_true]
    omega

/-- What `fb_split_node` leaves behind. The search order is kept if there is one; the tree grows by
`g`. -/
structure SplitTree (s s' : Fb) (R : Multiset ℕ) (t : Node ℕ ℕ n) (path path' : Path ℕ ℕ n)
    (g : ℕ) : Prop where
  shape : Shape s' R (plug path' t)
  keys : AllKeys IsKey (plug path' t).2
  sited : Sited path path'
  order : Ordered True unmarked IsKey (plug path t).2 →
    Ordered True unmarked IsKey (plug path' t).2 ∧ Roomier IsKey path path'
  used : 0 < path'.width
  room : path'.width < 128
  length : path'.length = path.length + g
  mem : ∀ b ∈ R, s'.mem b = s.mem b

theorem SplitTree.refl {t : Node ℕ ℕ n} {path : Path ℕ ℕ n} (h : Shape s R (plug path t))
    (hk : AllKeys IsKey (plug path t).2) (hused : 0 < path.width) (hroom : path.width < 128) :
    SplitTree s s R t path path 0 :=
  ⟨h, hk, .refl path, fun ho => ⟨ho, fun _ _ hx => hx⟩, hused, hroom, rfl, fun _ _ => rfl⟩

section Parent
variable {t : Node ℕ ℕ n} {pre post es₁ es₂ : List (ℕ × Node ℕ ℕ n)} {e : ℕ × Node ℕ ℕ n}
  {s₄ s₅ : Fb}

/-- A full root gets a new root above its halves; nobody frees it. -/
theorem split_root (hfresh : alloc s₄.live ∉ s₄.live)
    (hsplit : pre ++ (k, t) :: post = es₁ ++ e :: es₂)
    (hlen : pre.length + post.length + 1 = 128) (hsp : es₁.length = (splitPoint pre.length).1)
    (h : Shape s₄ (l ::ₘ r ::ₘ R) (plug .top (node a (es₁ ++ e :: es₂))))
    (hk : AllKeys IsKey (plug .top (node a (es₁ ++ e :: es₂))).2)
    (hl : Fits (s₄.mem l) (words es₁)) (hr : Fits (s₄.mem r) (words (e :: es₂))) (hne : es₁ ≠ []) :
    ∃ np s' path', s₄.makeNewRoot alloc fbLeftMostKey l e.1 r = some (np, s') ∧
      path'.positions = splitStack l r np pre.length 0 [] ∧
      SplitTree s₄ s' R t (.step a pre k post .top) path' 1 ∧ s'.freeNode = s₄.freeNode ∧
      lost s' (plug path' t) + 2 = lost s₄ (plug (.step a pre k post .top) t) + 1 := by
  obtain ⟨-, ⟨-, hes⟩, hc⟩ := shape_plug.mp h
  have hlevel : s₄.level = n + 1 := h.level
  rw [List.forall_mem_append, List.forall_mem_cons] at hes
  simp only [addrs_node, addrsOf_append, addrsOf_cons, Path.addrs] at hc
  have hcount : fbNilNode ::ₘ (R + addrsOf [(0, node l es₁), (e.1, node r (e :: es₂))] +
      s₄.freeNode) ≤ s₄.live.val := by
    refine le_trans ?_ hc
    simp only [addrsOf_cons, addrsOf_nil, addrs_node, ← Multiset.singleton_add]
    refine le_trans (Multiset.le_add_left _ {a}) (le_of_eq ?_)
    abel
  have hlinks : ∀ f ∈ [(0, node l es₁), (e.1, node r (e :: es₂))], Linked (Holds s₄) f.2 := by
    simp only [List.forall_mem_cons, List.not_mem_nil, false_imp_iff, implies_true, and_true]
    exact ⟨⟨⟨hl, by simpa [words] using hne⟩, hes.1⟩, ⟨hr, by simp⟩, List.forall_mem_cons.mpr hes.2⟩
  obtain ⟨np, s', hroot, hshape, hfree, hlive, hmem⟩ := makeNewRoot_spec hfresh hlevel
    (fits_rootSlots _ 0 l e.1 r) (by simp) hlinks hcount
  -- the root is treated as the only child of a node with the least key
  have hk' : AllKeys IsKey (plug (.step 0 [] 0 [] .top) (node a (es₁ ++ e :: es₂))).2 :=
    allKeys_plug.mpr ⟨hk, by simp, show 0 < fbNilKey by decide, by simp, trivial⟩
  obtain ⟨path', hpos, hplug, hsited, hroomier, hused, hroom, hplen⟩ :=
    focus_halves (P := IsKey) hsplit hlen hsp .top [] [] 0 a 0 l r np
  refine ⟨np, s', path', hroot, hpos, ⟨?_, ?_, ?_, fun ho => ⟨?_, ?_⟩, hused, hroom, hplen, hmem⟩,
    hfree, ?_⟩
  · rw [hplug]
    exact hshape
  · rw [hplug]
    exact allKeys_halves hk' l r np
  · have hroot : Sited (.step a pre k post .top) (.step a pre k post (.step 0 [] 0 [] .top)) :=
      ⟨by simp [Path.before], by simp [Path.after], fun _ => rfl⟩
    exact hroot.trans hsited
  · rw [plug_step, hsplit] at ho
    have ho' : Ordered True unmarked IsKey
        (plug (.step 0 [] 0 [] .top) (node a (es₁ ++ e :: es₂))).2 :=
      ordered_single (show 0 < fbNilKey by decide) ho (fun x _ => Nat.zero_le x) markIn_unmarked
    rw [hplug]
    exact ordered_halves ho' hne l r np
  · rw [plug_step] at ho
    refine fun low x hx => hroomier ho.keys_sorted low x ?_
    exact hx.mono fun y hy => ⟨hy, fun _ => Nat.zero_le y, by simp⟩
  · rw [hplug, plug_step, hsplit, lost_plug, lost_plug, hfree, hlive]
    simp only [addrs_node, addrsOf_append, addrsOf_cons, addrsOf_nil, Path.addrs,
      Multiset.card_add, Multiset.card_singleton, Multiset.card_zero, List.nil_append]
    push_cast
    omega

/-- A parent with a free slot takes both halves. -/
theorem split_inner {ppre ppost : List (ℕ × Node ℕ ℕ (n + 1))} {up : Path ℕ ℕ (n + 2)}
    (hfresh : alloc s₅.live ∉ s₅.live) (hsplit : pre ++ (k, t) :: post = es₁ ++ e :: es₂)
    (hlen : pre.length + post.length + 1 = 128) (hsp : es₁.length = (splitPoint pre.length).1)
    (h : Shape s₅ (l ::ₘ r ::ₘ R) (plug (.step p ppre kp ppost up) (node a (es₁ ++ e :: es₂))))
    (hk : AllKeys IsKey (plug (.step p ppre kp ppost up) (node a (es₁ ++ e :: es₂))).2)
    (hl : Fits (s₅.mem l) (words es₁)) (hr : Fits (s₅.mem r) (words (e :: es₂))) (hne : es₁ ≠ [])
    (hroom : ppre.length + ppost.length + 1 < 128) (hfree : s₅.freeNode.length < 7) :
    ∃ np s₆ s₇ s' path', s₅.cloningAndInsert alloc p ppre.length e.1 r = some (np, s₆) ∧
      s₆.replaceChild ((np, ppre.length) :: up.positions) a l = some s₇ ∧
      s₇.replaceChild up.positions p np = some s' ∧
      path'.positions = splitStack l r np pre.length ppre.length up.positions ∧
      SplitTree s₅ s' R t (.step a pre k post (.step p ppre kp ppost up)) path' 0 ∧
      s'.freeNode.length = s₅.freeNode.length + 2 ∧
      lost s' (plug path' t) + 2 =
        lost s₅ (plug (.step a pre k post (.step p ppre kp ppost up)) t) := by
  obtain ⟨np, s₆, s₇, s', hclone, hredir, hswap, hshape, hfree', hlive', hmem⟩ :=
    split_attach hfresh h hl hr hne hroom hfree
  obtain ⟨path', hpos, hplug, hsited, hroomier, hused, hroom', hplen⟩ :=
    focus_halves (P := IsKey) hsplit hlen hsp up ppre ppost kp a p l r np
  refine ⟨np, s₆, s₇, s', path', hclone, hredir, hswap, hpos,
    ⟨?_, ?_, hsited, fun ho => ⟨?_, ?_⟩, hused, hroom', hplen, hmem⟩, hfree', ?_⟩
  · rw [hplug]
    exact hshape
  · rw [hplug]
    exact allKeys_halves hk l r np
  · rw [plug_step, hsplit] at ho
    rw [hplug]
    exact ordered_halves ho hne l r np
  · rw [plug_step, plug_step] at ho
    exact hroomier ho.hole.child.keys_sorted
  · rw [hplug, plug_step, plug_step, hsplit, lost_plug, lost_plug, hfree', hlive']
    simp only [addrs_node, addrsOf_append, addrsOf_cons, Multiset.card_add,
      Multiset.card_singleton]
    push_cast
    omega

end Parent

/-- Every full node on the path to the hole is split, up to one that is not full or to the root. -/
theorem fbSplitNode_tree (hfresh : ∀ live, alloc live ∉ live) (path : Path ℕ ℕ n) {t : Node ℕ ℕ n}
    (h : Shape s R (plug path t)) (hk : AllKeys IsKey (plug path t).2)
    (hwidth : path.width = 128)
    (hfree : s.freeNode.length + 2 * fullRun path ≤ 8 + 2 * (allFull path).toNat) :
    ∃ s' path', fbSplitNode alloc s path.positions = some (s', path'.positions) ∧
      SplitTree s s' R t path path' (allFull path).toNat ∧
      lost s' (plug path' t) = lost s (plug path t) + (allFull path).toNat ∧
      s'.freeNode.length + 2 * (allFull path).toNat =
        s.freeNode.length + 2 * fullRun path := by
  induction path generalizing s R with
  | top => simp [Path.width] at hwidth
  | @step n a pre k post up ih =>
    rw [Path.width] at hwidth
    obtain ⟨hpos, hlt, -⟩ := splitPoint_spec (show pre.length < 128 by omega)
    have hfull : (s.mem a).isFullNode := (full_iff_width h hk).mpr hwidth
    have htree : plug (.step a pre k post up) t = plug up (node a (pre ++ (k, t) :: post)) := rfl
    rw [plug_step] at h hk
    have hcutlen : (pre ++ (k, t) :: post).length = 128 := by
      simp only [List.length_append, List.length_cons]
      omega
    have hkey : k < fbNilKey := keys_lt_nil hk (k, ptr t) (by simp)
    obtain ⟨es₁, e, es₂, hsplit, hsp⟩ := exists_cut (hcutlen.symm ▸ hlt)
    have hne : es₁ ≠ [] := List.ne_nil_of_length_pos (hsp ▸ hpos)
    rw [hsplit] at h hk hcutlen htree
    obtain ⟨l, r, hl, hr, hs₄, hfl, hfr, hmem₄, hfree₄, hlive₄⟩ := writeHalves_spec hfresh h
      (by simpa using hcutlen)
    rw [hsp] at hs₄ hfl hfr hmem₄ hfree₄ hlive₄
    generalize hs₄eq : writeHalves alloc s a (splitPoint pre.length).1 = s₄
      at hs₄ hfl hfr hmem₄ hfree₄ hlive₄
    have hcur : (s₄.mem (splitCursor l r pre.length).1).key (splitCursor l r pre.length).2 ≠
        fbNilKey := by
      rw [splitCursor_key hfl hfr hsplit (by omega) hsp]
      exact hkey.ne
    have hrk : (s₄.mem r).key 0 = e.1 := (hfr.slot 0 (e.1, ptr e.2) (by simp)).1
    have hR : ∀ b ∈ R, s₄.mem b = s.mem b := fun b hb =>
      hmem₄ b (Multiset.mem_of_le h.count (by simp [hb]))
    have hlost₄ : lost s₄ (plug (.step a pre k post up) t) =
        lost s (plug (.step a pre k post up) t) + 2 := by
      simp only [lost, hfree₄, hlive₄]
      push_cast
      omega
    cases up with
    | top =>
      obtain ⟨np, s', path', hroot, hposs, hres, hfree', hlost'⟩ :=
        split_root (hfresh _) hsplit hwidth hsp hs₄ hk hfl hfr hne
      rw [← hrk] at hroot
      have hgrow : (allFull (.step a pre k post .top)).toNat = 1 := by simp [allFull, hwidth]
      have hrun : fullRun (.step a pre k post .top) = 1 := if_pos hwidth
      rw [hgrow, hrun]
      refine ⟨s', path', ?_, { hres with mem := ?_ }, ?_, ?_⟩
      · rw [hposs]
        exact fbSplitNode_root hfull hl hr hs₄eq.symm hcur hroot
      · exact fun b hb => (hres.mem b hb).trans (hR b hb)
      · omega
      · rw [hfree', hfree₄]
    | step p ppre kp ppost up =>
      have hgrow : (allFull (.step a pre k post (.step p ppre kp ppost up))).toNat =
          (allFull (.step p ppre kp ppost up)).toNat := by
        rw [allFull, hwidth]
        rfl
      have hrun : fullRun (.step a pre k post (.step p ppre kp ppost up)) =
          fullRun (.step p ppre kp ppost up) + 1 := if_pos hwidth
      rw [hgrow, hrun] at hfree
      rw [hgrow, hrun]
      obtain ⟨s₅, up₅, hparent, hres₅, hlost₅, hfree₅⟩ : ∃ s₅ up₅, (if (s₄.mem p).isFullNode then
          fbSplitNode alloc s₄ ((p, ppre.length) :: up.positions)
          else some (s₄, (p, ppre.length) :: up.positions)) = some (s₅, Path.positions up₅) ∧
          SplitTree s₄ s₅ (l ::ₘ r ::ₘ R) (node a (es₁ ++ e :: es₂)) (.step p ppre kp ppost up) up₅
            (allFull (.step p ppre kp ppost up)).toNat ∧
          lost s₅ (plug up₅ (node a (es₁ ++ e :: es₂))) =
            lost s₄ (plug (.step p ppre kp ppost up) (node a (es₁ ++ e :: es₂))) +
              (allFull (.step p ppre kp ppost up)).toNat ∧
          s₅.freeNode.length + 2 * (allFull (.step p ppre kp ppost up)).toNat =
            s₄.freeNode.length + 2 * fullRun (.step p ppre kp ppost up) := by
        by_cases hpfull : (s₄.mem p).isFullNode
        · rw [if_pos hpfull]
          rw [full_iff_width hs₄ hk] at hpfull
          exact ih hs₄ hk hpfull (by
            rw [hfree₄]
            omega)
        · rw [if_neg hpfull]
          rw [full_iff_width hs₄ hk] at hpfull
          have hple := width_le hs₄.around
          have hstay : (allFull (.step p ppre kp ppost up)).toNat = 0 := by
            simp only [allFull, Bool.toNat_eq_zero, Bool.and_eq_false_imp, beq_iff_eq]
            exact fun heq => absurd heq hpfull
          have hnone : fullRun (.step p ppre kp ppost up) = 0 := if_neg hpfull
          rw [hstay, hnone]
          exact ⟨s₄, .step p ppre kp ppost up, rfl, .refl hs₄ hk (by simp [Path.width])
            (show ppre.length + ppost.length + 1 < 128 by omega), by simp, rfl⟩
      cases up₅ with
      | top => exact absurd hres₅.used (by simp [Path.width])
      | step p₁ ppre₁ kp₁ ppost₁ up₁ =>
        rw [hfree₄] at hfree₅
        have hkeep : ∀ b ∈ l ::ₘ r ::ₘ R, s₅.mem b = s₄.mem b := hres₅.mem
        obtain ⟨np, s₆, s₇, s', path', hclone, hredir, hswap, hposs, hres, hfree', hlost'⟩ :=
          split_inner (hfresh _) hsplit hwidth hsp hres₅.shape hres₅.keys
            ((hkeep l (by simp)).symm ▸ hfl) ((hkeep r (by simp)).symm ▸ hfr) hne hres₅.room
            (by omega)
        rw [← hrk] at hclone
        refine ⟨s', path', ?_, ⟨hres.shape, hres.keys, hres₅.sited.step.trans hres.sited,
          fun ho => ?_, hres.used, hres.room, ?_, ?_⟩, ?_, ?_⟩
        · rw [hposs]
          exact fbSplitNode_inner hfull hl hr hs₄eq.symm hcur hparent hres₅.shape.around.child_eq
            hclone hredir hswap
        · rw [htree] at ho
          obtain ⟨ho₅, hroomier₅⟩ := hres₅.order ho
          have ho₅' : Ordered True unmarked IsKey
              (plug (.step a pre k post (.step p₁ ppre₁ kp₁ ppost₁ up₁)) t).2 := by
            rw [plug_step, hsplit]
            exact ho₅
          obtain ⟨ho', hroomier'⟩ := hres.order ho₅'
          exact ⟨ho', fun low x hx => hroomier' low x (hroomier₅.step low x hx)⟩
        · have hlen₅ := hres₅.length
          rw [hres.length]
          simp only [Path.length] at hlen₅ ⊢
          omega
        · intro b hb
          rw [hres.mem b hb, hkeep b (by simp [hb]), hR b hb]
        · have htree₅ : plug (.step a pre k post (.step p₁ ppre₁ kp₁ ppost₁ up₁)) t =
              plug (.step p₁ ppre₁ kp₁ ppost₁ up₁) (node a (es₁ ++ e :: es₂)) := by
            rw [← hsplit]
            rfl
          rw [htree₅] at hlost'
          rw [htree] at hlost₄ ⊢
          omega
        · rw [hfree']
          omega

end YwStorage.FbTree

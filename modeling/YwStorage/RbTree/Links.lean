import YwStorage.RbTree.Basic

/-! What the link updates of the source do to the tree that the memory holds. -/
namespace YwStorage.RbTree
open LinkedTree

variable {s : Rb} {a b n : ℕ} {v w : NodeVal} {ch : Side → BinTree NodeVal} {d : Side}
  {t x y g : BinTree NodeVal} {f : Frame NodeVal} {path fs : List (Frame NodeVal)}

/-- The memory holds `t` at the root; the nil node keeps everything but its parent link. -/
structure Shape (s : Rb) (t : BinTree NodeVal) : Prop where
  root : s.root = t.addr
  linked : Linked s.mem nilNode t
  live : t.addrs ≤ s.live.val
  nilVal : (s.mem nilNode).val = ⟨.black, 0, 0⟩
  nilChild : (s.mem nilNode).child = fun _ => nilNode
  nilParent : t = .nil → (s.mem nilNode).parent = nilNode

def NodeVal.paint (v : NodeVal) (c : Color) : NodeVal := ⟨c, v.key, v.data⟩

@[simp] theorem NodeVal.color_paint (c : Color) : (v.paint c).color = c := rfl
@[simp] theorem NodeVal.key_paint (c : Color) : (v.paint c).key = v.key := rfl
@[simp] theorem NodeVal.data_paint (c : Color) : (v.paint c).data = v.data := rfl

def Frame.paint (f : Frame NodeVal) (c : Color) : Frame NodeVal := ⟨f.a, f.v.paint c, f.side, f.sib⟩

def BinTree.color : BinTree NodeVal → Color
  | .nil => .black
  | .node _ v _ => v.color

@[simp] theorem BinTree.color_nil : BinTree.color .nil = .black := rfl
@[simp] theorem BinTree.color_node : BinTree.color (.node a v ch) = v.color := rfl

namespace Rb

@[simp] theorem modify_root (h) : (s.modify n h).root = s.root := rfl
@[simp] theorem modify_live (h) : (s.modify n h).live = s.live := rfl
@[simp] theorem modify_mem_self (h) : (s.modify n h).mem n = h (s.mem n) := by simp [modify]

theorem modify_mem_of_ne (h) (hn : a ≠ n) : (s.modify n h).mem a = s.mem a := by
  simp [modify, hn]

@[simp] theorem replaceChild_live : (s.replaceChild a b).live = s.live := by
  unfold replaceChild
  split <;> rfl

@[simp] theorem rotate_live : (s.rotate a d).live = s.live := by
  simp only [rotate]
  split <;> simp [setParent, setChild]

end Rb

/-- The last three stores of `rotate`. -/
def linkGrandson (s : Rb) (a b : ℕ) (d : Side) (g : ℕ) : Rb :=
  let s₁ := (s.setParent a b).setChild a d.other g
  if g ≠ nilNode then s₁.setParent g a else s₁

theorem linkGrandson_spec {g : ℕ} (hg : a ≠ g) :
    (linkGrandson s a b d g).mem a =
        ⟨b, Function.update (s.mem a).child d.other g, (s.mem a).val⟩ ∧
      (g ≠ nilNode → (linkGrandson s a b d g).mem g = { s.mem g with parent := a }) ∧
      (∀ c, c ≠ a → c ≠ g ∨ g = nilNode → (linkGrandson s a b d g).mem c = s.mem c) ∧
      (linkGrandson s a b d g).root = s.root := by
  have h₁ : ((s.setParent a b).setChild a d.other g).mem a =
      ⟨b, Function.update (s.mem a).child d.other g, (s.mem a).val⟩ := by
    simp [Rb.setChild, Rb.setParent]
  have h₂ : ∀ c, c ≠ a → ((s.setParent a b).setChild a d.other g).mem c = s.mem c := by
    intro c hc
    rw [Rb.setChild, Rb.modify_mem_of_ne _ hc, Rb.setParent, Rb.modify_mem_of_ne _ hc]
  by_cases h0 : g = nilNode
  · have he : linkGrandson s a b d g = (s.setParent a b).setChild a d.other g := by
      simp [linkGrandson, h0]
    rw [he]
    exact ⟨h₁, fun h => absurd h0 h, fun c hc _ => h₂ c hc, rfl⟩
  · have he : linkGrandson s a b d g =
        ((s.setParent a b).setChild a d.other g).setParent g a := by
      simp [linkGrandson, h0]
    rw [he]
    refine ⟨?_, fun _ => ?_, fun c hc hcg => ?_, rfl⟩
    · rw [Rb.setParent, Rb.modify_mem_of_ne _ hg, h₁]
    · rw [Rb.setParent, Rb.modify_mem_self, h₂ g hg.symm]
    · rw [Rb.setParent, Rb.modify_mem_of_ne _ (hcg.resolve_right h0), h₂ c hc]

namespace Shape

theorem nodup (h : Shape s t) : t.addrs.Nodup := Multiset.nodup_of_le h.live s.live.nodup

theorem card_le (h : Shape s t) : t.addrs.card ≤ s.live.card := Multiset.card_le_card h.live

theorem tree (h : Shape s (fill path t)) : Linked s.mem (holeParent path) t :=
  (linked_fill.mp h.linked).1

theorem linkedPath (h : Shape s (fill path t)) : LinkedPath s.mem path t.addr :=
  (linked_fill.mp h.linked).2

theorem nodup_fill (h : Shape s (fill path t)) : (t.addrs + pathAddrs path).Nodup := by
  rw [← addrs_fill]
  exact h.nodup

theorem length_le (h : Shape s (fill path t)) : path.length ≤ s.live.card := by
  have hc := h.card_le
  rw [addrs_fill, Multiset.card_add] at hc
  have := length_le_card_pathAddrs path
  omega

/-- The cell of the node in focus. -/
theorem mem_node (h : Shape s (fill path (.node a v ch))) :
    s.mem a = ⟨holeParent path, fun e => (ch e).addr, v⟩ := h.tree.2.1

theorem node_ne_nil (h : Shape s (fill path (.node a v ch))) : a ≠ nilNode := h.tree.1

/-- The cell of the parent of the focus. -/
theorem mem_parent (h : Shape s (fill (f :: fs) t)) :
    s.mem f.a = ⟨holeParent fs, pair f.side t.addr f.sib.addr, f.v⟩ := h.linkedPath.2.1

theorem parent_ne_nil (h : Shape s (fill (f :: fs) t)) : f.a ≠ nilNode := h.linkedPath.1

theorem getColor_addr (h : Shape s (fill path t)) : s.getColor t.addr = BinTree.color t := by
  cases t with
  | nil => simp [Rb.getColor, h.nilVal]
  | node a v ch => simp [Rb.getColor, h.mem_node]

theorem root_nil (h : Shape s (fill [] t)) : s.root = t.addr := h.root

theorem root_eq_last (h : Shape s (fill (f :: fs) t)) : s.root ∈ pathAddrs (f :: fs) := by
  induction fs generalizing f t with
  | nil => simp [h.root, pathAddrs]
  | cons g gs ih =>
    have := ih (f := g) (t := f.attach t) h
    rw [pathAddrs]
    simp only [Multiset.mem_add]
    exact Or.inr (Or.inr this)

/-- Below a frame the focus is not the root. -/
theorem root_ne (h : Shape s (fill (f :: fs) (.node a v ch))) : s.root ≠ a := by
  intro he
  have hn := (Multiset.nodup_add.mp h.nodup_fill).2.2
  exact Multiset.disjoint_left.mp hn (show a ∈ (BinTree.node a v ch).addrs by simp [BinTree.addrs])
    (he ▸ h.root_eq_last)

theorem addr_ne_sib (h : Shape s (fill (f :: fs) (.node a v ch))) : f.sib.addr ≠ a := by
  intro he
  have hn := (Multiset.nodup_add.mp h.nodup_fill).2.2
  have ha : a ∈ (BinTree.node a v ch).addrs := by simp [BinTree.addrs]
  refine Multiset.disjoint_left.mp hn ha ?_
  have hs : f.sib.addr ∈ f.sib.addrs := Linked.addr_mem (he ▸ h.node_ne_nil)
  simp [pathAddrs, ← he, hs]

theorem getSide_eq (h : Shape s (fill (f :: fs) (.node a v ch))) : s.getSide a = f.side := by
  have hp : s.parent a = f.a := by rw [Rb.parent, h.mem_node, holeParent_cons]
  rw [Rb.getSide, Rb.child, hp, h.mem_parent]
  cases hd : f.side with
  | left => exact if_neg h.addr_ne_sib
  | right => simp [pair]

theorem parent_eq (h : Shape s (fill path (.node a v ch))) : s.parent a = holeParent path := by
  rw [Rb.parent, h.mem_node]

theorem child_eq (h : Shape s (fill path (.node a v ch))) : s.child a d = (ch d).addr := by
  rw [Rb.child, h.mem_node]

theorem sibling_eq (h : Shape s (fill (f :: fs) (.node a v ch))) : s.sibling a = f.sib.addr := by
  rw [Rb.sibling, h.getSide_eq, h.parent_eq, holeParent_cons, Rb.child, h.mem_parent]
  simp

/-- A store to the value of the focus. -/
theorem modifyVal (h : Shape s (fill path (.node a v ch))) (k : NodeVal → NodeVal) :
    Shape (s.modify a fun c => { c with val := k c.val }) (fill path (.node a (k v) ch)) := by
  have hne := h.node_ne_nil
  have hmem : ∀ b, b ≠ a → (s.modify a fun c => { c with val := k c.val }).mem b = s.mem b :=
    fun b hb => Rb.modify_mem_of_ne _ hb
  have h0 := hmem nilNode hne.symm
  refine ⟨?_, linked_setVal h.linked h.nodup ?_ hmem, ?_, h0 ▸ h.nilVal, h0 ▸ h.nilChild, ?_⟩
  · exact h.root.trans (addr_fill_congr rfl)
  · rw [Rb.modify_mem_self, h.mem_node]
  · have hl := h.live
    rw [addrs_fill] at hl ⊢
    exact hl
  · exact fun he => absurd he fill_node_ne_nil

theorem setColor (h : Shape s (fill path (.node a v ch))) (c : Color) :
    Shape (s.setColor a c) (fill path (.node a (v.paint c) ch)) :=
  h.modifyVal fun w => w.paint c

theorem setKey (h : Shape s (fill path (.node a v ch))) (k : ℤ) :
    Shape (s.setKey a k) (fill path (.node a { v with key := k } ch)) :=
  h.modifyVal fun w => { w with key := k }

/-- The value a node gets by moving to the top of the tree. -/
def topVal (path : List (Frame NodeVal)) (w : NodeVal) : NodeVal :=
  if path = [] then w.paint .black else w

theorem getSide_congr {s' : Rb} (h : Shape s (fill (f :: fs) (.node a v ch)))
    (ha : s'.mem a = s.mem a) (hf : s'.mem f.a = s.mem f.a) : s'.getSide a = f.side := by
  rw [← h.getSide_eq]
  simp only [Rb.getSide, Rb.child, Rb.parent, ha, h.mem_node, holeParent_cons, hf]

/-- `replace_child` puts the address `n` where the focus was, and links it back. -/
theorem replaceChild_spec (s₁ : Rb) (h : Shape s (fill path (.node a v ch)))
    (hroot : s₁.root = s.root) (hmem : ∀ c, c ≠ n → s₁.mem c = s.mem c)
    (hna : n ≠ a) (hn : n ∉ pathAddrs path) :
    (s₁.replaceChild a n).mem n =
        ⟨holeParent path, (s₁.mem n).child, topVal path (s₁.mem n).val⟩ ∧
      LinkedPath (s₁.replaceChild a n).mem path n ∧
      (s₁.replaceChild a n).root = (if path = [] then n else s.root) ∧
      ∀ c, c ≠ n → c ∉ pathAddrs path → (s₁.replaceChild a n).mem c = s.mem c := by
  cases path with
  | nil =>
    have hr : s₁.root = a := hroot.trans h.root_nil
    rw [Rb.replaceChild, if_pos hr]
    refine ⟨by simp [Rb.setParent, Rb.setColor, topVal, Rb.modify, NodeVal.paint], trivial,
      by simp [Rb.setParent, Rb.setColor], fun c hc _ => ?_⟩
    rw [Rb.setParent, Rb.modify_mem_of_ne _ hc, Rb.setColor, Rb.modify_mem_of_ne _ hc]
    exact hmem c hc
  | cons f fs =>
    have hr : s₁.root ≠ a := hroot ▸ h.root_ne
    have hnf : n ≠ f.a := fun he => hn (by simp [pathAddrs, he])
    have hf := hmem f.a hnf.symm
    have hp : s₁.parent a = f.a := by rw [Rb.parent, hmem a hna.symm, h.mem_node, holeParent_cons]
    rw [Rb.replaceChild, if_neg hr]
    simp only [hp, h.getSide_congr (hmem a hna.symm) hf]
    have hmem' : ∀ c, c ≠ n → c ≠ f.a →
        ((s₁.setChild f.a f.side n).setParent n f.a).mem c = s.mem c := by
      intro c hc hcf
      rw [Rb.setParent, Rb.modify_mem_of_ne _ hc, Rb.setChild, Rb.modify_mem_of_ne _ hcf, hmem c hc]
    refine ⟨?_, ?_, by simp [Rb.setParent, Rb.setChild, hroot], fun c hc hcp => ?_⟩
    · rw [Rb.setParent, Rb.modify_mem_self, Rb.setChild, Rb.modify_mem_of_ne _ hnf]
      simp [topVal]
    · refine h.linkedPath.redirect (Multiset.nodup_add.mp h.nodup_fill).2.1 ?_ ?_
      · rw [Rb.setParent, Rb.modify_mem_of_ne _ hnf.symm, Rb.setChild, Rb.modify_mem_self, hf,
          h.mem_parent]
        simp
      · exact fun c hc hcf => hmem' c (fun he => hn (he ▸ hc)) hcf
    · exact hmem' c hc fun he => hcp (by simp [pathAddrs, he])

/-- A rotation towards `d` lifts the child on the other side; at the root it turns black. -/
theorem rotate (h : Shape s (fill path (.node a v (pair d x (.node b w (pair d g y)))))) :
    Shape (s.rotate a d)
      (fill path (.node b (topVal path w) (pair d (.node a v (pair d x g)) y))) := by
  have hd := h.nodup
  have ha0 : a ≠ 0 := h.node_ne_nil
  have hma : s.mem a = ⟨holeParent path, pair d x.addr b, v⟩ := by
    rw [h.mem_node, apply_pair]
    rfl
  obtain ⟨hb0, hmb, hgy⟩ : Linked s.mem a (.node b w (pair d g y)) := by
    simpa using h.tree.2.2 d.other
  rw [apply_pair] at hmb
  have hgl : Linked s.mem b g := by simpa using hgy d
  rw [addrs_fill, BinTree.addrs_pair, BinTree.addrs_pair] at hd
  simp only [Multiset.nodup_add, Multiset.disjoint_add_right, Multiset.disjoint_add_left,
    Multiset.singleton_disjoint, Multiset.mem_singleton, Multiset.disjoint_singleton] at hd
  obtain ⟨⟨-, ⟨-, ⟨-, ⟨-, -, -⟩, hbg, hby⟩, hbx, hxg, -⟩, hax, hab, hag, hay⟩, -, hap, hxp, hbp,
    hgp, hyp⟩ := hd
  have hg : ∀ c, c ≠ 0 → c ∉ g.addrs → c ≠ g.addr :=
    fun c hc hcg he => hcg (he ▸ Linked.addr_mem (he ▸ hc))
  obtain ⟨h₂b, h₂p, h₂r, h₂m⟩ := h.replaceChild_spec (s.setChild b d a) rfl
    (fun c hc => Rb.modify_mem_of_ne _ hc) hab hbp
  have hrot : s.rotate a d = linkGrandson ((s.setChild b d a).replaceChild a b) a b d g.addr := by
    simp [Rb.rotate, linkGrandson, Rb.child, hma, hmb]
  have hlive : (s.rotate a d).live = s.live := Rb.rotate_live
  have hcb : (s.setChild b d a).mem b = ⟨a, pair d a y.addr, w⟩ := by
    rw [Rb.setChild, Rb.modify_mem_self, hmb, update_pair_self]
  rw [hcb] at h₂b
  rw [hrot] at hlive ⊢
  generalize (s.setChild b d a).replaceChild a b = s₂ at *
  obtain ⟨hma', hmg', hm', hr'⟩ := linkGrandson_spec (s := s₂) (b := b) (d := d) (hg a ha0 hag)
  -- outside of `a`, the grandson and the cells `replace_child` touched nothing has changed
  have hmem : ∀ c, c ≠ a → c ≠ b → c ∉ pathAddrs path → c ≠ g.addr ∨ g.addr = 0 →
      (linkGrandson s₂ a b d g.addr).mem c = s.mem c :=
    fun c hca hcb hcp hcg => (hm' c hca hcg).trans (h₂m c hcb hcp)
  have hpath0 := h.linkedPath.zero_notMem
  have h0 : (linkGrandson s₂ a b d g.addr).mem 0 = s.mem 0 :=
    hmem 0 ha0.symm hb0.symm hpath0 ((em (g.addr = 0)).symm.imp_left Ne.symm)
  refine ⟨?_, linked_rotate h.linked h.nodup ?_ ?_ ?_ ?_ ?_, ?_, h0 ▸ h.nilVal, h0 ▸ h.nilChild,
    fun he => absurd he fill_node_ne_nil⟩
  · rw [hr', h₂r]
    cases path with
    | nil => rfl
    | cons f fs => exact h.root.trans addr_fill_cons
  · exact (hm' b hab (Or.inl (hg b hb0 hbg))).trans h₂b
  · rw [hma', h₂m a (Ne.symm hab) hap, hma]
    simp
  · intro hgn
    have hz : g.addr ≠ 0 := fun hz => hgn (hgl.addr_eq_zero.mp hz)
    have hmg := Linked.addr_mem hz
    rw [hmg' hz, h₂m _ (fun he => hbg (he ▸ hmg)) (Multiset.disjoint_left.mp hgp hmg)]
  · intro c hc hcg
    simp only [Multiset.mem_add] at hc
    have hne : c ≠ a ∧ c ≠ b ∧ c ∉ pathAddrs path := by
      rcases hc with (hc | hc) | hc
      · exact ⟨fun he => hax (he ▸ hc), fun he => hbx (he ▸ hc), Multiset.disjoint_left.mp hxp hc⟩
      · exact ⟨fun he => hag (he ▸ hc), fun he => hbg (he ▸ hc), Multiset.disjoint_left.mp hgp hc⟩
      · exact ⟨fun he => hay (he ▸ hc), fun he => hby (he ▸ hc), Multiset.disjoint_left.mp hyp hc⟩
    exact hmem c hne.1 hne.2.1 hne.2.2 (Or.inl hcg)
  · refine h₂p.congr fun c hc => hm' c (fun he => hap (he ▸ hc)) ?_
    by_cases hz : g.addr = 0
    · exact Or.inr hz
    · exact Or.inl fun he => Multiset.disjoint_left.mp hgp (Linked.addr_mem hz) (he ▸ hc)
  · rw [hlive]
    refine le_of_eq_of_le ?_ h.live
    simp only [addrs_fill, BinTree.addrs_pair]
    abel

/-- The tree that moves into the hole of `path`; as the whole tree it turns black. -/
def topTree (path : List (Frame NodeVal)) : BinTree NodeVal → BinTree NodeVal
  | .nil => .nil
  | .node a v ch => .node a (topVal path v) ch

@[simp] theorem addrs_topTree : (topTree path t).addrs = t.addrs := by cases t <;> rfl

@[simp] theorem addr_topTree : (topTree path t).addr = t.addr := by cases t <;> rfl

theorem topTree_cons : topTree (f :: fs) t = t := by cases t <;> rfl

/-- Splicing out a node with at most one child. -/
theorem replaceChild (h : Shape s (fill path (.node a v (pair d x .nil)))) :
    Shape (s.replaceChild a x.addr) (fill path (topTree path x)) := by
  have hx : Linked s.mem a x := by simpa using h.tree.2.2 d
  have hd := h.nodup
  rw [addrs_fill, BinTree.addrs_pair] at hd
  simp only [BinTree.addrs_nil, add_zero, Multiset.nodup_add, Multiset.disjoint_add_left,
    Multiset.singleton_disjoint] at hd
  obtain ⟨⟨-, hxn, hax⟩, -, hap, hxp⟩ := hd
  have hxa : x.addr ≠ a := by
    intro he
    exact hax (he ▸ Linked.addr_mem (he ▸ h.node_ne_nil))
  have hxpath : x.addr ∉ pathAddrs path := by
    by_cases hz : x.addr = 0
    · exact hz ▸ h.linkedPath.zero_notMem
    · exact Multiset.disjoint_left.mp hxp (Linked.addr_mem hz)
  obtain ⟨hmx, hpath, hroot, hmem⟩ := h.replaceChild_spec s rfl (fun _ _ => rfl) hxa hxpath
  have hlive : (s.replaceChild a x.addr).live = s.live := Rb.replaceChild_live
  generalize s.replaceChild a x.addr = s' at *
  have hl : (fill path (topTree path x)).addrs ≤ s'.live.val := by
    refine le_trans ?_ (hlive ▸ h.live)
    rw [addrs_fill, addrs_fill, BinTree.addrs_pair]
    simpa using Multiset.le_cons_self _ a
  have hr : s'.root = (fill path (topTree path x)).addr := by
    cases path with
    | nil => simpa using hroot
    | cons f fs => exact hroot.trans (h.root.trans addr_fill_cons)
  cases x with
  | nil =>
    simp only [BinTree.addr_nil] at hmx hpath
    have h0 := h.nilVal
    have hv : topVal path ⟨.black, 0, 0⟩ = ⟨.black, 0, 0⟩ := by simp [topVal, NodeVal.paint]
    refine ⟨hr, linked_fill.mpr ⟨trivial, hpath⟩, hl, by rw [hmx, h0, hv], by rw [hmx, h.nilChild],
      fun he => ?_⟩
    cases path with
    | nil => rw [hmx, holeParent_nil]
    | cons f fs => exact absurd he fill_node_ne_nil
  | node b w ch =>
    have h0 : s'.mem 0 = s.mem 0 := hmem 0 hx.1.symm h.linkedPath.zero_notMem
    obtain ⟨hb0, hmb, hch⟩ := hx
    simp only [BinTree.addr_node] at hmx
    refine ⟨hr, linked_fill.mpr ⟨⟨hb0, by rw [hmx, hmb], fun e => (hch e).congr ?_⟩, hpath⟩, hl,
      h0 ▸ h.nilVal, h0 ▸ h.nilChild, fun he => absurd he fill_node_ne_nil⟩
    intro c hc
    rw [BinTree.addrs_node _ _ _ e] at hxn hxp
    simp only [Multiset.nodup_add, Multiset.singleton_disjoint, Multiset.mem_add, not_or,
      Multiset.disjoint_add_left] at hxn hxp
    exact hmem c (fun he => hxn.2.2.1 ((show c = b from he) ▸ hc))
      (Multiset.disjoint_left.mp hxp.2.1 hc)

/-- The field that holds the address in the hole. -/
def slotOf : List (Frame NodeVal) → Slot
  | [] => .root
  | f :: _ => .child f.a f.side

theorem load_slotOf (h : Shape s (fill path t)) : s.load (slotOf path) = t.addr := by
  cases path with
  | nil => exact h.root
  | cons f fs => simp [slotOf, Rb.load, Rb.child, h.mem_parent]

/-- Hanging a fresh node into an empty hole. -/
theorem store (h : Shape s (fill path .nil)) (hn0 : n ≠ nilNode) (hnp : n ∉ pathAddrs path)
    (hn : (s.mem n).child = fun _ => nilNode) (hlive : n ∈ s.live) :
    Shape ((s.setParent n (holeParent path)).store n (slotOf path))
      (fill path (.node n (s.mem n).val fun _ => .nil)) := by
  have hl : (fill path (.node n (s.mem n).val fun _ => .nil)).addrs ≤ s.live.val := by
    have := h.live
    simp only [addrs_fill, zero_add, BinTree.addrs, add_zero] at this ⊢
    rw [Multiset.singleton_add]
    exact Multiset.cons_le_of_notMem hnp |>.mpr ⟨hlive, this⟩
  cases path with
  | nil =>
    have hmem : ∀ c, c ≠ n → ((s.setParent n nilNode).store n .root).mem c = s.mem c := by
      intro c hc
      show (s.setParent n nilNode).mem c = _
      exact Rb.modify_mem_of_ne _ hc
    have h0 := hmem 0 hn0.symm
    refine ⟨rfl, ⟨hn0, ?_, fun _ => trivial⟩, hl, h0 ▸ h.nilVal, h0 ▸ h.nilChild,
      fun he => absurd he fill_node_ne_nil⟩
    show (s.setParent n nilNode).mem n = _
    rw [Rb.setParent, Rb.modify_mem_self, hn]
    rfl
  | cons f fs =>
    have hnf : n ≠ f.a := fun he => hnp (by simp [pathAddrs, he])
    have hmem : ∀ c, c ≠ n → c ≠ f.a →
        ((s.setParent n f.a).store n (.child f.a f.side)).mem c = s.mem c := by
      intro c hc hcf
      rw [Rb.store, Rb.setChild, Rb.modify_mem_of_ne _ hcf, Rb.setParent, Rb.modify_mem_of_ne _ hc]
    have h0 := hmem 0 hn0.symm h.parent_ne_nil.symm
    refine ⟨h.root.trans addr_fill_cons, linked_fill.mpr ⟨⟨hn0, ?_, fun _ => trivial⟩, ?_⟩, hl,
      h0 ▸ h.nilVal, h0 ▸ h.nilChild, fun he => absurd he fill_node_ne_nil⟩
    · show ((s.setParent n f.a).store n (.child f.a f.side)).mem n = _
      rw [Rb.store, Rb.setChild, Rb.modify_mem_of_ne _ hnf, Rb.setParent, Rb.modify_mem_self, hn]
      rfl
    · have hd := (Multiset.nodup_add.mp h.nodup_fill).2.1
      refine h.linkedPath.redirect hd ?_ ?_
      · show ((s.setParent n f.a).store n (.child f.a f.side)).mem f.a = _
        rw [Rb.store, Rb.setChild, Rb.modify_mem_self, Rb.setParent,
          Rb.modify_mem_of_ne _ hnf.symm, h.mem_parent]
        simp
      · exact fun c hc hcf => hmem c (fun he => hnp (he ▸ hc)) hcf

end Shape
end YwStorage.RbTree

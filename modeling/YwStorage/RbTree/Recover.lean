import YwStorage.RbTree.Balance

/-! The insertion fix-up: one red-red pair moves up the path until it can be resolved. -/
namespace YwStorage.RbTree
open LinkedTree

variable {s : Rb} {a b : ℕ} {v w : NodeVal} {ch : Side → BinTree NodeVal} {d : Side} {n : ℕ}
  {t x y : BinTree NodeVal} {f g : Frame NodeVal} {path fs gs : List (Frame NodeVal)}

/-- The same tree, seen from the subtree that the innermost frame leaves aside. -/
def Frame.flip (f : Frame NodeVal) (t : BinTree NodeVal) : Frame NodeVal :=
  ⟨f.a, f.v, f.side.other, t⟩

theorem fill_flip : fill (f :: fs) t = fill (Frame.flip f t :: fs) f.sib := by
  simp only [fill_cons, Frame.attach, Frame.flip, pair_flip]

namespace Shape

theorem getColor_sib (h : Shape s (fill (f :: fs) t)) :
    s.getColor f.sib.addr = BinTree.color f.sib := by
  rw [fill_flip] at h
  exact h.getColor_addr

theorem getColor_parent (h : Shape s (fill (f :: fs) t)) : s.getColor f.a = f.v.color := by
  rw [Rb.getColor, h.mem_parent]

theorem setColor_parent (h : Shape s (fill (f :: fs) t)) (c : Color) :
    Shape (s.setColor f.a c) (fill (Frame.paint f c :: fs) t) := by
  have h' : Shape s (fill fs (.node f.a f.v (pair f.side t f.sib))) := h
  exact h'.setColor c

theorem setColor_sib (h : Shape s (fill (f :: fs) t)) (hb : f.sib = .node b w ch) (c : Color) :
    Shape (s.setColor b c)
      (fill (⟨f.a, f.v, f.side, .node b (w.paint c) ch⟩ :: fs) t) := by
  rw [fill_flip, hb] at h
  rw [fill_flip]
  exact h.setColor c

theorem grandParent_eq (h : Shape s (fill (f :: g :: gs) (.node a v ch))) :
    s.grandParent a = g.a := by
  have hup : Shape s (fill (g :: gs) (.node f.a f.v (pair f.side (.node a v ch) f.sib))) := h
  rw [Rb.grandParent, h.parent_eq, holeParent_cons, hup.parent_eq, holeParent_cons]

theorem uncle_eq (h : Shape s (fill (f :: g :: gs) (.node a v ch))) : s.uncle a = g.sib.addr := by
  have hup : Shape s (fill (g :: gs) (.node f.a f.v (pair f.side (.node a v ch) f.sib))) := h
  rw [Rb.uncle, h.parent_eq, holeParent_cons, hup.sibling_eq]

/-- `balanced_rotate` at the parent: parent and child swap colours while the child moves up. -/
theorem balancedRotate_parent (h : Shape s (fill (f :: fs) (.node a v (pair f.side x y))))
    (hv : v.color = .red) : ∃ s', s.balancedRotate f.a f.side = some s' ∧ s'.live = s.live ∧
      Shape s' (fill fs (.node a (topVal fs (v.paint f.v.color))
        (pair f.side x (.node f.a (f.v.paint .red) (pair f.side y f.sib))))) := by
  have hc : s.child f.a f.side = a := by
    rw [Rb.child, h.mem_parent]
    simp
  have hcol : s.getColor a = .red := by rw [Rb.getColor, h.mem_node, hv]
  have h₁ : Shape ((s.setColor a f.v.color).setColor f.a .red)
      (fill fs (.node f.a (f.v.paint .red) (pair f.side.other f.sib
        (.node a (v.paint f.v.color) (pair f.side.other y x))))) := by
    simpa [Frame.attach, Frame.paint, pair_flip] using (h.setColor f.v.color).setColor_parent .red
  refine ⟨((s.setColor a f.v.color).setColor f.a .red).rotate f.a f.side.other, ?_, ?_, ?_⟩
  · simp [Rb.balancedRotate, hc, hcol, h.getColor_parent]
  · simp [Rb.setColor]
  · simpa [pair_flip] using h₁.rotate

end Shape

/-- `s'` holds `t'`, which has the nodes and entries of the tree `t` of `s`. -/
structure Keeps (s : Rb) (t : BinTree NodeVal) (s' : Rb) (t' : BinTree NodeVal) : Prop where
  shape : Shape s' t'
  live : s'.live = s.live
  entries : entries t' = entries t
  addrs : t'.addrs = t.addrs

/-- Case 5: parent and node lean to the same side below a black grandparent. -/
theorem recover_lean (h : Shape s (fill (f :: g :: gs) t)) (hside : f.side = g.side)
    (hf : f.v.color = .red) (hg : g.v.color = .black) (ht : Colored t n)
    (hfs : Colored f.sib n) (hfb : BinTree.color f.sib = .black) (hgs : Colored g.sib n)
    (hgb : BinTree.color g.sib = .black) (hp : HoleOk gs (n + 1)) :
    ∃ s' t', s.balancedRotate g.a g.side = some s' ∧ RootOk t' ∧
      Keeps s (fill (f :: g :: gs) t) s' t' := by
  have h₁ : Shape s (fill (g :: gs) (.node f.a f.v (pair g.side t f.sib))) := by
    rw [← hside]
    exact h
  obtain ⟨s', hs', hlive, hshape⟩ := h₁.balancedRotate_parent hf
  refine ⟨s', _, hs', rootOk_fill.mpr ⟨n + 1, ?_, ?_, hp⟩, ⟨hshape, hlive, ?_, ?_⟩⟩
  · have hb : (Shape.topVal gs (f.v.paint g.v.color)).color = .black := by
      unfold Shape.topVal
      split <;> simp [hg]
    rw [colored_black g.side hb, colored_red g.side rfl]
    exact ⟨ht, ⟨hfb, hgb⟩, hfs, hgs⟩
  · simp only [BinTree.color_node, Shape.topVal]
    split <;> simp [hg]
  · simp only [fill_cons]
    apply entries_congr
    simp only [Frame.attach, hside]
    exact (entries_rotate (by simp) (by simp)).symm
  · simp only [fill_cons, addrs_fill, Frame.attach, BinTree.addrs_pair]
    abel

/-- Case 4: the node leans inward; a first rotation turns it into case 5. -/
theorem recover_inward (h : Shape s (fill (f :: g :: gs) (.node a v ch)))
    (hside : f.side ≠ g.side) :
    Shape (s.rotate f.a g.side) (fill (⟨a, v, g.side, ch g.side.other⟩ :: g :: gs)
      (.node f.a f.v (pair g.side f.sib (ch g.side)))) := by
  have hs : f.side = g.side.other := (Side.eq_or_eq_other g.side f.side).resolve_left hside
  have h₁ : Shape s (fill (g :: gs) (.node f.a f.v (pair g.side f.sib
      (.node a v (pair g.side (ch g.side) (ch g.side.other)))))) := by
    rw [pair_eta, ← pair_flip, ← hs]
    exact h
  exact h₁.rotate

/-- What `recover` does when it is called on a red node. -/
def RecoverSpec (fuel : ℕ) : Prop :=
  ∀ {path : List (Frame NodeVal)} {s : Rb} {a : ℕ} {v : NodeVal} {ch : Side → BinTree NodeVal}
      {n : ℕ},
    path.length < fuel → Shape s (fill path (.node a v ch)) → v.color = .red →
    Colored (.node a v ch) n → HoleOk path n →
    ∃ s' t', recover fuel s a = some (true, s') ∧ RootOk t' ∧
      Keeps s (fill path (.node a v ch)) s' t'

/-- Case 3: the red pair moves up to the grandparent. -/
theorem recover_redUncle {fuel : ℕ} (ih : RecoverSpec fuel) (hfuel : gs.length < fuel)
    (h : Shape s (fill (f :: g :: gs) (.node a v ch))) (hv : v.color = .red)
    (hf : f.v.color = .red) (hg : g.v.color = .black) (hu : BinTree.color g.sib = .red)
    (hc : Colored (.node a v ch) n) (hs : Colored f.sib n) (hgs : Colored g.sib n)
    (hp : HoleOk gs (n + 1)) :
    ∃ s' t', recover (fuel + 1) s a = some (true, s') ∧ RootOk t' ∧
      Keeps s (fill (f :: g :: gs) (.node a v ch)) s' t' := by
  have hup : Shape s (fill (g :: gs) (.node f.a f.v (pair f.side (.node a v ch) f.sib))) := h
  cases hb : g.sib with
  | nil => simp [hb] at hu
  | node b w bch =>
    have h₁ : Shape (s.setColor f.a .black)
        (fill (Frame.paint f .black :: g :: gs) (.node a v ch)) :=
      h.setColor_parent .black
    have h₁up : Shape (s.setColor f.a .black) (fill (g :: gs) (.node f.a
        (f.v.paint .black) (pair f.side (.node a v ch) f.sib))) := h₁
    have h₂up := h₁up.setColor_sib hb .black
    have h₂ : Shape ((s.setColor f.a .black).setColor b .black)
        (fill (Frame.paint f .black ::
          ⟨g.a, g.v, g.side, .node b (w.paint .black) bch⟩ :: gs) (.node a v ch)) := h₂up
    have h₃up : Shape (((s.setColor f.a .black).setColor b .black).setColor g.a .red)
        (fill gs (.node g.a (g.v.paint .red) (pair g.side (.node f.a (f.v.paint .black)
          (pair f.side (.node a v ch) f.sib)) (.node b (w.paint .black) bch)))) :=
      h₂up.setColor_parent .red
    have h₃ : Shape (((s.setColor f.a .black).setColor b .black).setColor g.a .red)
        (fill (Frame.paint f .black ::
          ⟨g.a, g.v.paint .red, g.side, .node b (w.paint .black) bch⟩ :: gs)
          (.node a v ch)) := h₃up
    have heq : recover (fuel + 1) s a = (recover fuel
        (((s.setColor f.a .black).setColor b .black).setColor g.a .red) g.a).map
          fun r => (true, r.2) := by
      have hcol : s.getColor a = .red := by rw [Rb.getColor, h.mem_node, hv]
      have hpar : s.parent a = f.a := h.parent_eq
      have hu₁ : (s.setColor f.a .black).uncle a = b := by rw [h₁.uncle_eq, hb]; rfl
      have hub : s.getColor (s.uncle a) = .red := by rw [h.uncle_eq, hup.getColor_sib, hu]
      have hgc : s.getColor (s.grandParent a) = .black := by
        rw [h.grandParent_eq, hup.getColor_parent, hg]
      simp only [recover, hcol, h.root_ne, hpar, h.getColor_parent, hf, hgc, hub, hu₁,
        h₂.grandParent_eq, h₃.grandParent_eq]
      cases recover fuel (((s.setColor f.a .black).setColor b .black).setColor g.a .red) g.a <;>
        simp
    have hbc : Colored (.node b (w.paint .black) bch) (n + 1) := by
      rw [hb] at hgs hu
      exact hgs.blacken hu
    have hfc : Colored (.node f.a (f.v.paint .black) (pair f.side (.node a v ch) f.sib))
        (n + 1) := (colored_black f.side rfl).mpr ⟨hc, hs⟩
    obtain ⟨s', t', hrec, hok, hk⟩ :=
      ih hfuel h₃up rfl ((colored_red g.side rfl).mpr ⟨⟨rfl, rfl⟩, hfc, hbc⟩) hp
    refine ⟨s', t', by rw [heq, hrec]; rfl, hok, ⟨hk.shape, hk.live, hk.entries.trans ?_,
      hk.addrs.trans ?_⟩⟩
    · exact entries_congr (entries_node_congr (entries_paint _) (by simp [hb]) (entry_paint _))
    · simp only [fill_cons, addrs_fill, Frame.attach, BinTree.addrs_pair, hb]
      rfl

/-- Cases 4 and 5: one or two rotations end the fix-up. -/
theorem recover_blackUncle (fuel : ℕ)
    (h : Shape s (fill (f :: g :: gs) (.node a v ch))) (hv : v.color = .red)
    (hf : f.v.color = .red) (hg : g.v.color = .black) (hu : BinTree.color g.sib = .black)
    (hc : Colored (.node a v ch) n) (hs : Colored f.sib n) (hsb : BinTree.color f.sib = .black)
    (hgs : Colored g.sib n) (hp : HoleOk gs (n + 1)) :
    ∃ s' t', recover (fuel + 1) s a = some (true, s') ∧ RootOk t' ∧
      Keeps s (fill (f :: g :: gs) (.node a v ch)) s' t' := by
  have hup : Shape s (fill (g :: gs) (.node f.a f.v (pair f.side (.node a v ch) f.sib))) := h
  have hcol : s.getColor a = .red := by rw [Rb.getColor, h.mem_node, hv]
  have hpar : s.parent a = f.a := h.parent_eq
  have hub : s.getColor (s.uncle a) = .black := by rw [h.uncle_eq, hup.getColor_sib, hu]
  have hgc : s.getColor g.a = .black := by rw [hup.getColor_parent, hg]
  by_cases hside : f.side = g.side
  · obtain ⟨s', t', hrot, hok, hk⟩ := recover_lean h hside hf hg hc hs hsb hgs hu hp
    refine ⟨s', t', ?_, hok, hk⟩
    simp [recover, hcol, h.root_ne, hpar, h.getColor_parent, hf, hub, h.getSide_eq,
      hup.getSide_eq, hside, h.grandParent_eq, hgc, hrot]
  · have h₁ := recover_inward h hside
    have h₁up : Shape (s.rotate f.a g.side) (fill (g :: gs) (.node a v (pair g.side
      (.node f.a f.v (pair g.side f.sib (ch g.side))) (ch g.side.other)))) := h₁
    rw [← pair_eta g.side ch, colored_red g.side hv] at hc
    have hcf : Colored (.node f.a f.v (pair g.side f.sib (ch g.side))) n :=
      (colored_red g.side hf).mpr ⟨⟨hsb, hc.1.1⟩, hs, hc.2.1⟩
    obtain ⟨s', t', hrot, hok, hk⟩ := recover_lean h₁ rfl hv hg hcf hc.2.2 hc.1.2 hgs hu hp
    have hub₁ : (s.rotate f.a g.side).getColor ((s.rotate f.a g.side).uncle f.a) = .black := by
      rw [h₁.uncle_eq, h₁up.getColor_sib, hu]
    refine ⟨s', t', ?_, hok, ⟨hk.shape, hk.live.trans Rb.rotate_live, hk.entries.trans ?_,
      hk.addrs.trans ?_⟩⟩
    · simp [recover, hcol, h.root_ne, hpar, h.getColor_parent, hf, hub, h.getSide_eq, hgc,
        h.grandParent_eq, hup.getSide_eq, hside, h₁up.getSide_eq, h₁up.child_eq, hub₁,
        h₁.grandParent_eq, h₁.getSide_eq, hrot]
    · have hs : f.side = g.side.other := (Side.eq_or_eq_other g.side f.side).resolve_left hside
      simp only [fill_cons, Frame.attach, hs, pair_flip]
      refine entries_congr (entries_node_congr ?_ rfl rfl)
      exact (entries_rotate rfl rfl).trans (by rw [pair_eta])
    · simp only [fill_cons, addrs_fill, Frame.attach, BinTree.addrs_pair,
        BinTree.addrs_node a v ch g.side]
      abel

theorem recover_spec (fuel : ℕ) (hfuel : path.length < fuel)
    (h : Shape s (fill path (.node a v ch))) (hv : v.color = .red)
    (hc : Colored (.node a v ch) n) (hp : HoleOk path n) :
    ∃ s' t', recover fuel s a = some (true, s') ∧ RootOk t' ∧
      Keeps s (fill path (.node a v ch)) s' t' := by
  induction fuel generalizing path s a v ch n with
  | zero => omega
  | succ fuel ih =>
    have hcol : s.getColor a = .red := by rw [Rb.getColor, h.mem_node, hv]
    cases path with
    | nil =>
      have hroot : s.root = a := h.root
      refine ⟨s.setColor a .black, _, by simp [recover, hcol, hroot], ?_,
        ⟨h.setColor .black, rfl, ?_, ?_⟩⟩
      · exact rootOk_fill.mpr ⟨n + 1, hc.blacken hv, by simp, trivial⟩
      · simp [entries_node]
      · simp [BinTree.addrs]
    | cons f fs =>
      have hroot : s.root ≠ a := h.root_ne
      have hpar : s.parent a = f.a := h.parent_eq
      obtain ⟨hsib, hred, hfs⟩ := hp
      by_cases hf : f.v.color = .black
      · have hok : HoleOk (f :: fs) n := ⟨hsib, hred, hfs⟩
        have ht : RootOk (fill (f :: fs) (.node a v ch)) :=
          rootOk_fill.mpr ⟨n, hc, fun _ => hf, hok⟩
        refine ⟨s, _, ?_, ht, ⟨h, rfl, rfl, rfl⟩⟩
        simp [recover, hcol, hroot, hpar, h.getColor_parent, hf]
      have hfr : f.v.color = .red := by
        cases hx : f.v.color <;> simp_all
      obtain ⟨hsb, hgb⟩ := hred hfr
      cases fs with
      | nil => simp [parentColor] at hgb
      | cons g gs =>
        obtain ⟨hgsib, -, hgs⟩ := hfs
        simp only [parentColor] at hgb
        simp only [hfr, hgb, Color.weight, add_zero] at hgs hgsib
        have hup : Shape s (fill (g :: gs) (.node f.a f.v (pair f.side (.node a v ch) f.sib))) := h
        have hunc := h.getColor_sib
        by_cases hu : BinTree.color g.sib = .red
        · exact recover_redUncle ih (by simp at hfuel; omega) h hv hfr hgb hu hc hsib hgsib hgs
        · exact recover_blackUncle fuel h hv hfr hgb (Color.eq_black hu) hc hsib hsb hgsib hgs

end YwStorage.RbTree

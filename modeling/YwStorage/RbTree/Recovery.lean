import YwStorage.RbTree.Recover

/-!
The removal fix-up. It runs while the black node is still in place and rebuilds the path above it
so that the hole takes a tree with one black node less.
-/
namespace YwStorage.RbTree
open LinkedTree

variable {s : Rb} {a b c : ℕ} {v w u : NodeVal} {ch bch : Side → BinTree NodeVal} {d : Side} {n : ℕ}
  {t x y : BinTree NodeVal} {f g : Frame NodeVal} {path fs gs : List (Frame NodeVal)}

/-- `s'` has the tree `t` below the path `path'`, which has the nodes and entries of `path`. -/
structure KeepsHole (s : Rb) (path : List (Frame NodeVal)) (t : BinTree NodeVal) (s' : Rb)
    (path' : List (Frame NodeVal)) : Prop where
  shape : Shape s' (fill path' t)
  live : s'.live = s.live
  before : entriesBefore path' = entriesBefore path
  after : entriesAfter path' = entriesAfter path
  addrs : pathAddrs path' = pathAddrs path

/-- The fix-up succeeds: the hole is one black node short and its parent is black. -/
def Recovered (s : Rb) (path : List (Frame NodeVal)) (t : BinTree NodeVal) (n : ℕ)
    (r : Option Rb) : Prop :=
  ∃ s' path', r = some s' ∧ HoleOk path' n ∧ (path' = [] ∨ parentColor path' = .black) ∧
    KeepsHole s path t s' path'

namespace Shape

theorem parent_sib (h : Shape s (fill (f :: fs) t)) (hb : f.sib = .node b w bch) :
    s.parent b = f.a := by
  rw [fill_flip, hb] at h
  exact h.parent_eq

theorem getColor_nephew (h : Shape s (fill (f :: fs) t)) (hb : f.sib = .node b w bch) (d : Side) :
    s.getColor (s.child b d) = BinTree.color (bch d) := by
  rw [fill_flip, hb] at h
  rw [h.child_eq]
  rw [← pair_eta d bch] at h
  have h' : Shape s (fill (⟨b, w, d, bch d.other⟩ :: Frame.flip f t :: fs) (bch d)) := h
  exact h'.getColor_addr

end Shape

/-- A frame may change its colours and the shape of the subtree aside. -/
theorem entries_frame_congr (hv : entry v = entry f.v) (hx : entries x = entries f.sib)
    (hb : entriesBefore gs = entriesBefore fs) (ha : entriesAfter gs = entriesAfter fs) :
    entriesBefore (⟨f.a, v, f.side, x⟩ :: gs) = entriesBefore (f :: fs) ∧
      entriesAfter (⟨f.a, v, f.side, x⟩ :: gs) = entriesAfter (f :: fs) := by
  cases hd : f.side with
  | left =>
    rw [entriesBefore_left rfl, entriesBefore_left hd, entriesAfter_left rfl, entriesAfter_left hd,
      hv, hx, hb, ha]
    exact ⟨rfl, rfl⟩
  | right =>
    rw [entriesBefore_right rfl, entriesBefore_right hd, entriesAfter_right rfl,
      entriesAfter_right hd, hv, hx, hb, ha]
    exact ⟨rfl, rfl⟩

/-- The path below `f` after its sibling `b` was lifted above it: the parent, now with the value
`v`, has the sibling's inner subtree `x` aside, and the sibling its outer subtree `y`. -/
def liftSib (f : Frame NodeVal) (v : NodeVal) (b : ℕ) (w : NodeVal) (x y : BinTree NodeVal)
    (fs : List (Frame NodeVal)) : List (Frame NodeVal) :=
  ⟨f.a, v, f.side, x⟩ :: ⟨b, w, f.side, y⟩ :: fs

theorem entries_liftSib (hsib : entries f.sib = entries (.node b w (pair f.side x y)))
    (hv : entry v = entry f.v) :
    entriesBefore (liftSib f v b w x y fs) = entriesBefore (f :: fs) ∧
      entriesAfter (liftSib f v b w x y fs) = entriesAfter (f :: fs) := by
  unfold liftSib
  cases hd : f.side with
  | left =>
    rw [hd] at hsib
    rw [entriesBefore_left rfl, entriesBefore_left rfl, entriesBefore_left hd,
      entriesAfter_left rfl, entriesAfter_left rfl, entriesAfter_left hd, hsib]
    simp [entries_pair, hv]
  | right =>
    rw [hd] at hsib
    rw [entriesBefore_right rfl, entriesBefore_right rfl, entriesBefore_right hd,
      entriesAfter_right rfl, entriesAfter_right rfl, entriesAfter_right hd, hsib]
    simp [entries_pair, hv]

theorem pathAddrs_liftSib (hsib : f.sib.addrs = (BinTree.node b w (pair f.side x y)).addrs) :
    pathAddrs (liftSib f v b w x y fs) = pathAddrs (f :: fs) := by
  simp only [liftSib, pathAddrs, hsib, BinTree.addrs_pair]
  abel

/-- The last part of the fix-up, once the outer nephew is red. -/
def bringBlack (s : Rb) (node sNode : ℕ) (side : Side) : Rb :=
  let s₂ := s.setColor sNode (s.getColor (s.parent sNode))
  let s₃ := s₂.setColor (s₂.parent node) .black
  let s₄ := s₃.setColor (s₃.child sNode side.other) .black
  s₄.rotate (s₄.parent node) side

/-- What the recolouring and the rotation do to the path. -/
theorem bringBlack_shape (h : Shape s (fill (f :: fs) (.node a v ch)))
    (hb : f.sib = .node b w (pair f.side x (.node c u bch))) :
    Shape (bringBlack s a b f.side) (fill (liftSib f (f.v.paint .black) b
      (Shape.topVal fs (w.paint f.v.color)) x (.node c (u.paint .black) bch) fs)
      (.node a v ch)) := by
  have h₂ := h.setColor_sib hb f.v.color
  have h₃ := h₂.setColor_parent .black
  have h₃c : Shape ((s.setColor b f.v.color).setColor f.a .black)
      (fill (⟨b, w.paint f.v.color, f.side.other, x⟩ ::
        ⟨f.a, f.v.paint .black, f.side.other, .node a v ch⟩ :: fs) (.node c u bch)) := by
    rw [fill_flip, Frame.paint, Frame.flip] at h₃
    simpa [Frame.attach, pair_flip] using h₃
  have h₄ := h₃c.setColor .black
  have h₄a : Shape (((s.setColor b f.v.color).setColor f.a .black).setColor c .black)
      (fill (⟨f.a, f.v.paint .black, f.side, .node b (w.paint f.v.color)
        (pair f.side x (.node c (u.paint .black) bch))⟩ :: fs) (.node a v ch)) := by
    simpa [Frame.attach, pair_flip] using h₄
  have h₄p : Shape (((s.setColor b f.v.color).setColor f.a .black).setColor c .black)
      (fill fs (.node f.a (f.v.paint .black) (pair f.side (.node a v ch)
        (.node b (w.paint f.v.color) (pair f.side x (.node c (u.paint .black) bch)))))) := h₄a
  have hcol : s.getColor (s.parent b) = f.v.color := by rw [h.parent_sib hb, h.getColor_parent]
  have hp₂ : (s.setColor b f.v.color).parent a = f.a := h₂.parent_eq
  have hc₃ : ((s.setColor b f.v.color).setColor f.a .black).child b f.side.other = c := by
    rw [Rb.child, h₃c.mem_parent]
    simp
  have hp₄ : (((s.setColor b f.v.color).setColor f.a .black).setColor c .black).parent a = f.a :=
    h₄a.parent_eq
  have heq : bringBlack s a b f.side =
      (((s.setColor b f.v.color).setColor f.a .black).setColor c .black).rotate f.a f.side := by
    simp only [bringBlack, hcol, hp₂, hc₃, hp₄]
  rw [heq]
  exact h₄p.rotate

/-- The outer nephew turns black, so it may have red children before. -/
theorem bringBlack_spec (h : Shape s (fill (f :: fs) (.node a v ch)))
    (hb : f.sib = .node b w (pair f.side x (.node c u bch))) (hx : Colored x n)
    (hc : Colored (.node c (u.paint .black) bch) (n + 1))
    (hred : f.v.color = .red → parentColor fs = .black)
    (hfs : HoleOk fs (n + 1 + f.v.color.weight)) :
    Recovered s (f :: fs) (.node a v ch) n (some (bringBlack s a b f.side)) := by
  have htop : HoleOk (⟨b, Shape.topVal fs (w.paint f.v.color), f.side,
      .node c (u.paint .black) bch⟩ :: fs) (n + 1) := by
    refine ⟨hc, ?_, ?_⟩
    · intro ht
      cases fs with
      | nil => simp [Shape.topVal] at ht
      | cons g gs => exact ⟨rfl, hred ht⟩
    · cases fs with
      | nil => trivial
      | cons g gs => exact hfs
  have hhole : HoleOk (liftSib f (f.v.paint .black) b (Shape.topVal fs (w.paint f.v.color)) x
      (.node c (u.paint .black) bch) fs) n := ⟨hx, by simp, htop⟩
  have hent : entries f.sib = entries (.node b (Shape.topVal fs (w.paint f.v.color))
      (pair f.side x (.node c (u.paint .black) bch))) := by
    rw [hb]
    exact entries_node_congr rfl (entries_paint _).symm (by simp)
  have haddr : f.sib.addrs = (BinTree.node b (Shape.topVal fs (w.paint f.v.color))
      (pair f.side x (.node c (u.paint .black) bch))).addrs := by
    rw [hb, BinTree.addrs_pair, BinTree.addrs_pair]
    rfl
  obtain ⟨hbefore, hafter⟩ := entries_liftSib hent (entry_paint .black)
  exact ⟨_, _, rfl, hhole, Or.inr rfl, ⟨bringBlack_shape h hb, by simp [bringBlack, Rb.setColor],
    hbefore, hafter, pathAddrs_liftSib haddr⟩⟩

/-- The fix-up may go on from a state that keeps the hole. -/
theorem Recovered.trans {s₁ : Rb} {r : Option Rb} (hk : KeepsHole s path t s₁ gs)
    (h : Recovered s₁ gs t n r) : Recovered s path t n r := by
  obtain ⟨s', path', hr, hhole, hpc, hk'⟩ := h
  exact ⟨s', path', hr, hhole, hpc, ⟨hk'.shape, hk'.live.trans hk.live, hk'.before.trans hk.before,
    hk'.after.trans hk.after, hk'.addrs.trans hk.addrs⟩⟩

/-- Only colours and the shape of the sibling have changed. -/
theorem keepsHole_sib {s₁ : Rb} (h : Shape s₁ (fill (⟨f.a, w, f.side, x⟩ :: fs) t))
    (hlive : s₁.live = s.live) (hv : entry w = entry f.v) (hent : entries x = entries f.sib)
    (haddr : x.addrs = f.sib.addrs) :
    KeepsHole s (f :: fs) t s₁ (⟨f.a, w, f.side, x⟩ :: fs) := by
  obtain ⟨hbefore, hafter⟩ := entries_frame_congr hv hent (Eq.refl (entriesBefore fs))
    (Eq.refl (entriesAfter fs))
  exact ⟨h, hlive, hbefore, hafter, by simp only [pathAddrs, haddr]⟩

/-- A red inner nephew is rotated to the outer side first. -/
theorem recovery_innerNephew (h : Shape s (fill (f :: fs) (.node a v ch)))
    (hb : f.sib = .node b w (pair f.side (.node c u bch) y)) (hw : w.color = .black)
    (hu : u.color = .red) (hp : HoleOk (f :: fs) (n + 1)) :
    ∃ s₁, s.balancedRotate b f.side = some s₁ ∧ s₁.sibling a = c ∧
      Recovered s (f :: fs) (.node a v ch) n (some (bringBlack s₁ a c f.side)) := by
  obtain ⟨hsib, hred, hfs⟩ := hp
  rw [hb, colored_black f.side hw, ← pair_eta f.side bch, colored_red f.side hu] at hsib
  obtain ⟨⟨-, hx, hz⟩, hy⟩ := hsib
  have hbf : Shape s (fill (⟨b, w, f.side, y⟩ :: Frame.flip f (.node a v ch) :: fs)
      (.node c u (pair f.side (bch f.side) (bch f.side.other)))) := by
    rw [fill_flip, hb] at h
    rw [pair_eta]
    exact h
  obtain ⟨s₁, hs₁, hlive, hshape⟩ := hbf.balancedRotate_parent hu
  have h₁ : Shape s₁ (fill (⟨f.a, f.v, f.side, .node c (u.paint w.color) (pair f.side (bch f.side)
      (.node b (w.paint .red) (pair f.side (bch f.side.other) y)))⟩ :: fs) (.node a v ch)) := by
    rw [fill_flip]
    exact hshape
  have hent : entries (.node c (u.paint w.color) (pair f.side (bch f.side)
      (.node b (w.paint .red) (pair f.side (bch f.side.other) y)))) = entries f.sib := by
    rw [hb]
    refine (entries_rotate rfl rfl).symm.trans (entries_node_congr ?_ rfl rfl)
    rw [pair_eta, entries_paint]
  have haddr : (BinTree.node c (u.paint w.color) (pair f.side (bch f.side)
      (.node b (w.paint .red) (pair f.side (bch f.side.other) y)))).addrs = f.sib.addrs := by
    rw [hb]
    simp only [BinTree.addrs_pair, BinTree.addrs_node c u bch f.side]
    abel
  exact ⟨s₁, hs₁, h₁.sibling_eq, Recovered.trans (keepsHole_sib h₁ hlive rfl hent haddr)
    (bringBlack_spec h₁ rfl hx ((colored_black f.side rfl).mpr ⟨hz, hy⟩) (fun hr => (hred hr).2)
      hfs)⟩

/-- One call of the fix-up below the root, in terms of the tree. -/
theorem recovery_eq (fuel : ℕ) (h : Shape s (fill (f :: fs) (.node a v ch)))
    (hv : v.color = .black) (hb : f.sib = .node b w bch) :
    recoveryBlackCountBalance (fuel + 1) s a =
      if f.v.color = .black ∧ w.color = .black ∧ BinTree.color (bch .left) = .black ∧
          BinTree.color (bch .right) = .black then
        recoveryBlackCountBalance fuel (s.setColor b .red) f.a
      else if f.v.color = .red ∧ BinTree.color (bch .left) = .black ∧
          BinTree.color (bch .right) = .black then
        some ((s.setColor b .red).setColor f.a .black)
      else if w.color = .red then
        (s.balancedRotate f.a f.side.other).bind fun s₁ => recoveryBlackCountBalance fuel s₁ a
      else if BinTree.color (bch f.side) = .red then
        (s.balancedRotate b f.side).map fun s₁ => bringBlack s₁ a (s₁.sibling a) f.side
      else some (bringBlack s a b f.side) := by
  have hpar : s.parent a = f.a := h.parent_eq
  have hcol : s.getColor a = .black := by rw [Rb.getColor, h.mem_node, hv]
  have hsib : s.sibling a = b := by rw [h.sibling_eq, hb]; rfl
  have hbcol : s.getColor b = w.color := by
    rw [← hsib, h.sibling_eq, h.getColor_sib, hb, BinTree.color_node]
  have hpar₁ : (s.setColor b .red).parent a = f.a := (h.setColor_sib hb .red).parent_eq
  simp only [recoveryBlackCountBalance, hpar, h.parent_ne_nil, hcol, hsib, hbcol, h.getSide_eq,
    h.parent_sib hb, h.getColor_parent, h.getColor_nephew hb, hpar₁]
  simp only [guard, if_true, if_false, bringBlack]
  split_ifs <;> first | rfl | (cases s.balancedRotate b f.side <;> rfl)

/-- A red nephew of a black sibling ends the fix-up. -/
theorem recovery_redNephew (fuel : ℕ) (h : Shape s (fill (f :: fs) (.node a v ch)))
    (hv : v.color = .black) (hb : f.sib = .node b w bch) (hw : w.color = .black)
    (hn : ¬ (BinTree.color (bch .left) = .black ∧ BinTree.color (bch .right) = .black))
    (hp : HoleOk (f :: fs) (n + 1)) :
    Recovered s (f :: fs) (.node a v ch) n (recoveryBlackCountBalance (fuel + 1) s a) := by
  rw [recovery_eq fuel h hv hb, if_neg fun hc => hn hc.2.2, if_neg fun hc => hn hc.2,
    if_neg (by simp [hw])]
  split_ifs with hin
  · cases hc : bch f.side with
    | nil => simp [hc] at hin
    | node c u cch =>
      rw [hc] at hin
      have hb' : f.sib = .node b w (pair f.side (.node c u cch) (bch f.side.other)) := by
        rw [← hc, pair_eta, hb]
      obtain ⟨s₁, hs₁, hsib₁, hrec⟩ := recovery_innerNephew h hb' hw hin hp
      rw [hs₁, Option.map_some, hsib₁]
      exact hrec
  · have hout : BinTree.color (bch f.side.other) = .red := by
      by_contra hout
      have hall : ∀ d, BinTree.color (bch d) = .black := fun d => by
        rcases Side.eq_or_eq_other f.side d with rfl | rfl
        · exact Color.eq_black hin
        · exact Color.eq_black hout
      exact hn ⟨hall .left, hall .right⟩
    cases hc : bch f.side.other with
    | nil => simp [hc] at hout
    | node c u cch =>
      rw [hc] at hout
      have hb' : f.sib = .node b w (pair f.side (bch f.side) (.node c u cch)) := by
        rw [← hc, pair_eta, hb]
      obtain ⟨hsib, hred, hfs⟩ := hp
      rw [hb', colored_black f.side hw] at hsib
      exact bringBlack_spec h hb' hsib.1 (hsib.2.blacken hout) (fun hr => (hred hr).2) hfs

/-- A sibling may turn red when it and its children are black. -/
theorem Colored.redden (h : Colored (.node b w bch) (n + 1)) (hw : w.color = .black)
    (hn : BinTree.color (bch .left) = .black ∧ BinTree.color (bch .right) = .black) :
    Colored (.node b (w.paint .red) bch) n := by
  rw [← pair_eta .left bch] at h ⊢
  exact (colored_red .left rfl).mpr ⟨hn, (colored_black .left hw).mp h⟩

/-- Below a red parent the fix-up ends in one step. -/
theorem recovery_redParent (fuel : ℕ) (h : Shape s (fill (f :: fs) (.node a v ch)))
    (hv : v.color = .black) (hf : f.v.color = .red) (hp : HoleOk (f :: fs) (n + 1)) :
    Recovered s (f :: fs) (.node a v ch) n (recoveryBlackCountBalance (fuel + 1) s a) := by
  have ⟨hsib, hred, hfs⟩ := hp
  cases hb : f.sib with
  | nil => simp [hb] at hsib
  | node b w bch =>
    have hw : w.color = .black := by simpa [hb] using (hred hf).1
    by_cases hn : BinTree.color (bch .left) = .black ∧ BinTree.color (bch .right) = .black
    · rw [recovery_eq fuel h hv hb, if_neg (by simp [hf]), if_pos ⟨hf, hn⟩]
      have h₁ : Shape ((s.setColor b .red).setColor f.a .black)
          (fill (⟨f.a, f.v.paint .black, f.side, .node b (w.paint .red) bch⟩ :: fs)
            (.node a v ch)) := (h.setColor_sib hb .red).setColor_parent .black
      rw [hb] at hsib
      rw [hf, Color.weight, add_zero] at hfs
      have hhole : HoleOk (⟨f.a, f.v.paint .black, f.side, .node b (w.paint .red) bch⟩ :: fs) n :=
        ⟨hsib.redden hw hn, by simp, hfs⟩
      exact ⟨_, _, rfl, hhole, Or.inr rfl, keepsHole_sib h₁ rfl rfl (by simp [hb]) (hb ▸ rfl)⟩
    · exact recovery_redNephew fuel h hv hb hw hn hp

/-- A red sibling is lifted above the parent, which turns red. -/
theorem recovery_redSib (h : Shape s (fill (f :: fs) (.node a v ch)))
    (hb : f.sib = .node b w (pair f.side x y)) (hw : w.color = .red)
    (hp : HoleOk (f :: fs) (n + 1)) :
    ∃ s₁ g, s.balancedRotate f.a f.side.other = some s₁ ∧ g.color = .black ∧
      HoleOk (liftSib f (f.v.paint .red) b g x y fs) (n + 1) ∧
      KeepsHole s (f :: fs) (.node a v ch) s₁ (liftSib f (f.v.paint .red) b g x y fs) := by
  obtain ⟨hsib, hred, hfs⟩ := hp
  have hf : f.v.color = .black := by
    apply Color.eq_black
    intro hf
    have := (hred hf).1
    simp [hb, hw] at this
  have hbf : Shape s (fill (Frame.flip f (.node a v ch) :: fs)
      (.node b w (pair f.side.other y x))) := by
    rw [fill_flip, hb] at h
    rw [pair_flip]
    exact h
  obtain ⟨s₁, hs₁, hlive, hshape⟩ := hbf.balancedRotate_parent hw
  have hg : (Shape.topVal fs (w.paint f.v.color)).color = .black := by
    unfold Shape.topVal
    split <;> simp [hf]
  have h₁ : Shape s₁ (fill (liftSib f (f.v.paint .red) b (Shape.topVal fs (w.paint f.v.color)) x y
      fs) (.node a v ch)) := by
    simpa [Frame.flip, liftSib, Frame.attach, pair_flip] using hshape
  rw [hb, colored_red f.side hw] at hsib
  rw [hf, Color.weight] at hfs
  have htop : HoleOk (⟨b, Shape.topVal fs (w.paint f.v.color), f.side, y⟩ :: fs) (n + 1) :=
    ⟨hsib.2.2, by simp [hg], by rw [hg]; exact hfs⟩
  have hent : entries f.sib =
      entries (.node b (Shape.topVal fs (w.paint f.v.color)) (pair f.side x y)) := by
    rw [hb]
    exact entries_node_congr rfl rfl (by simp)
  obtain ⟨hbefore, hafter⟩ := entries_liftSib hent (entry_paint .red)
  exact ⟨s₁, _, hs₁, hg, ⟨hsib.2.1, fun _ => ⟨hsib.1.1, hg⟩, htop⟩,
    ⟨h₁, hlive, hbefore, hafter,
      pathAddrs_liftSib (by rw [hb, BinTree.addrs_pair, BinTree.addrs_pair])⟩⟩

/-- The removal fix-up ends, and afterwards the hole is one black node short. -/
theorem recovery_spec (fuel : ℕ) (hfuel : path.length + 2 ≤ fuel)
    (h : Shape s (fill path (.node a v ch))) (hv : v.color = .black)
    (hp : HoleOk path (n + 1)) :
    Recovered s path (.node a v ch) n (recoveryBlackCountBalance fuel s a) := by
  induction fuel generalizing path s a v ch n with
  | zero => omega
  | succ fuel ih =>
    cases path with
    | nil =>
      have hpar : s.parent a = nilNode := h.parent_eq
      exact ⟨s, [], by simp [recoveryBlackCountBalance, hpar], trivial, Or.inl rfl,
        ⟨h, rfl, rfl, rfl, rfl⟩⟩
    | cons f fs =>
      have ⟨hsib, hred, hfs⟩ := hp
      by_cases hf : f.v.color = .red
      · exact recovery_redParent fuel h hv hf hp
      have hfb := Color.eq_black hf
      cases hb : f.sib with
      | nil => simp [hb] at hsib
      | node b w bch =>
        by_cases hw : w.color = .red
        · -- the node gets a red parent, so the next call is the last one
          obtain ⟨fuel, rfl⟩ : ∃ k, fuel = k + 1 := ⟨fuel - 1, by simp at hfuel; omega⟩
          obtain ⟨s₁, g, hs₁, hg, hhole, hk⟩ := recovery_redSib h (by rw [pair_eta, hb]) hw hp
          rw [recovery_eq _ h hv hb, if_neg (by simp [hw]), if_neg (by simp [hfb]), if_pos hw, hs₁]
          exact Recovered.trans hk (recovery_redParent fuel hk.shape hv rfl hhole)
        have hwb := Color.eq_black hw
        by_cases hn : BinTree.color (bch .left) = .black ∧ BinTree.color (bch .right) = .black
        · -- everything is black: the sibling turns red and the parent is short in turn
          have h₁ : Shape (s.setColor b .red) (fill fs (.node f.a f.v (pair f.side (.node a v ch)
              (.node b (w.paint .red) bch)))) := h.setColor_sib hb .red
          rw [hb] at hsib
          rw [hfb, Color.weight] at hfs
          rw [recovery_eq _ h hv hb, if_pos ⟨hfb, hwb, hn⟩]
          obtain ⟨s', path', hr, hhole, -, hk⟩ := ih (by simp at hfuel; omega) h₁ hfb hfs
          have hent : entries (.node b (w.paint .red) bch) = entries f.sib := by simp [hb]
          obtain ⟨hbefore, hafter⟩ := entries_frame_congr (Eq.refl (entry f.v)) hent hk.before
            hk.after
          have haddr : pathAddrs (⟨f.a, f.v, f.side, .node b (w.paint .red) bch⟩ :: path') =
              pathAddrs (f :: fs) := by
            simp only [pathAddrs, hk.addrs, hb]
            rfl
          have hhole' : HoleOk (⟨f.a, f.v, f.side, .node b (w.paint .red) bch⟩ :: path') n :=
            ⟨hsib.redden hwb hn, fun hr => absurd hr hf, by rw [hfb]; exact hhole⟩
          exact ⟨s', _, hr, hhole', Or.inr hfb, ⟨hk.shape, hk.live, hbefore, hafter, haddr⟩⟩
        · exact recovery_redNephew fuel h hv hb hwb hn hp

end YwStorage.RbTree

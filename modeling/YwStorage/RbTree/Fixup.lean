import YwStorage.RbTree.Map

/-!
The removal fix-up with its expectations written out. `checkedRecovery` is the source's recursion
with an assertion for everything it relies on; it never fails where the red-black rules hold.
-/
namespace YwStorage.RbTree
open LinkedTree Lts

/-- `recovery_black_count_balance` that also asserts that its node is black, that the sibling is a
node and, after a rotation for a red sibling, that it does not rotate for one again. -/
def checkedRecovery : ℕ → Bool → Rb → ℕ → Option Rb
  | 0, _, _, _ => none
  | fuel + 1, rotated, s, node => do
    let side := s.getSide node
    guard (s.getColor node = .black)
    if s.parent node = nilNode then
      return s
    let sNode := s.sibling node
    guard (sNode ≠ nilNode)
    if s.getColor (s.parent sNode) = .black ∧ s.getColor sNode = .black ∧
        s.getColor (s.child sNode .left) = .black ∧
        s.getColor (s.child sNode .right) = .black then
      checkedRecovery fuel false (s.setColor sNode .red) (s.parent node)
    else if s.getColor (s.parent sNode) = .red ∧
        s.getColor (s.child sNode .left) = .black ∧
        s.getColor (s.child sNode .right) = .black then
      let s₁ := s.setColor sNode .red
      return s₁.setColor (s₁.parent node) .black
    else if s.getColor sNode = .red then
      guard (rotated = false)
      let s₁ ← s.balancedRotate (s.parent node) side.other
      checkedRecovery fuel true s₁ node
    else
      let (s₁, sNode₁) ← if s.getColor (s.child sNode side) = .red then do
          let s₁ ← s.balancedRotate sNode side
          pure (s₁, s₁.sibling node)
        else pure (s, sNode)
      let s₂ := s₁.setColor sNode₁ (s₁.getColor (s₁.parent sNode₁))
      let s₃ := s₂.setColor (s₂.parent node) .black
      let s₄ := s₃.setColor (s₃.child sNode₁ side.other) .black
      return s₄.rotate (s₄.parent node) side

/-- `rb_remove` with the fix-up left open. -/
def removeWith (fix : Rb → ℕ → Option Rb) (s : Rb) (key : ℤ) : Option (Bool × Rb) := do
  if s.root = nilNode then
    return (false, s)
  let (slot, _) ← traverse s key
  let target := s.load slot
  if s.key target ≠ key ∨ target = nilNode then
    return (false, s)
  let (s₁, target₁, child) ←
    if s.child target .left ≠ nilNode ∧ s.child target .right ≠ nilNode then do
      let child ← getMaximum s s.loopBound (s.child target .left)
      let s₁ := s.setKey target (s.key child)
      pure (s₁, child, s₁.child child .left)
    else
      pure (s, target, if s.child target .left ≠ nilNode then s.child target .left
        else s.child target .right)
  let s₂ ← if s₁.getColor target₁ = .black then fix s₁ target₁ else pure s₁
  return (true, (s₂.replaceChild target₁ child).freeMem target₁)

theorem rbRemove_eq_removeWith (s : Rb) (key : ℤ) :
    rbRemove s key = removeWith (fun s a => recoveryBlackCountBalance s.loopBound s a) s key := rfl

/-- `rb_remove` with the checked fix-up. -/
def checkedRemove (s : Rb) (key : ℤ) : Option (Bool × Rb) :=
  removeWith (fun s a => checkedRecovery s.loopBound false s a) s key

variable {s : Rb} {a b : ℕ} {v w : NodeVal} {ch bch : Side → BinTree NodeVal} {n : ℕ} {key : ℤ}
  {t : BinTree NodeVal} {f : Frame NodeVal} {path fs : List (Frame NodeVal)} {rotated : Bool}
  {fix fix' : Rb → ℕ → Option Rb}

/-- One call of the checked fix-up below the root: only a second rotation for a red sibling sets it
apart. -/
theorem checkedRecovery_eq (fuel : ℕ) (h : Shape s (fill (f :: fs) (.node a v ch)))
    (hv : v.color = .black) (hb : f.sib = .node b w bch) :
    checkedRecovery (fuel + 1) rotated s a =
      if f.v.color = .black ∧ w.color = .black ∧ BinTree.color (bch .left) = .black ∧
          BinTree.color (bch .right) = .black then
        checkedRecovery fuel false (s.setColor b .red) f.a
      else if f.v.color = .red ∧ BinTree.color (bch .left) = .black ∧
          BinTree.color (bch .right) = .black then
        some ((s.setColor b .red).setColor f.a .black)
      else if w.color = .red then
        if rotated = false then
          (s.balancedRotate f.a f.side.other).bind fun s₁ => checkedRecovery fuel true s₁ a
        else none
      else if BinTree.color (bch f.side) = .red then
        (s.balancedRotate b f.side).map fun s₁ => bringBlack s₁ a (s₁.sibling a) f.side
      else some (bringBlack s a b f.side) := by
  have hpar : s.parent a = f.a := h.parent_eq
  have hcol : s.getColor a = .black := by rw [Rb.getColor, h.mem_node, hv]
  have hsib : s.sibling a = b := by rw [h.sibling_eq, hb]; rfl
  have hbnil : b ≠ nilNode := by
    rw [fill_flip, hb] at h
    exact h.node_ne_nil
  have hbcol : s.getColor b = w.color := by
    rw [← hsib, h.sibling_eq, h.getColor_sib, hb, BinTree.color_node]
  have hpar₁ : (s.setColor b .red).parent a = f.a := (h.setColor_sib hb .red).parent_eq
  simp only [checkedRecovery, hpar, h.parent_ne_nil, hcol, hsib, hbcol, h.getSide_eq,
    h.parent_sib hb, h.getColor_parent, h.getColor_nephew hb, hpar₁]
  simp only [guard, if_true, if_false, bringBlack, hbnil, ne_eq, not_false_eq_true]
  split_ifs <;> first | rfl | (cases s.balancedRotate b f.side <;> rfl)

/-- A call below a red parent is the last one. -/
theorem checkedRecovery_redParent (fuel : ℕ) (h : Shape s (fill (f :: fs) (.node a v ch)))
    (hv : v.color = .black) (hf : f.v.color = .red) (hp : HoleOk (f :: fs) (n + 1)) :
    checkedRecovery (fuel + 1) rotated s a = recoveryBlackCountBalance (fuel + 1) s a := by
  have ⟨hsib, hred, hfs⟩ := hp
  cases hb : f.sib with
  | nil => simp [hb] at hsib
  | node b w bch =>
    have hw : w.color ≠ .red := by
      have hblack : w.color = .black := by simpa [hb] using (hred hf).1
      simp [hblack]
    have hfb : f.v.color ≠ .black := by simp [hf]
    rw [checkedRecovery_eq fuel h hv hb, recovery_eq fuel h hv hb]
    simp only [hfb, hw, false_and, if_false]

/-- On a red-black tree with a hole one black node short the assertions hold. -/
theorem checkedRecovery_of_holeOk (fuel : ℕ) (hfuel : path.length + 2 ≤ fuel)
    (h : Shape s (fill path (.node a v ch))) (hv : v.color = .black) (hp : HoleOk path (n + 1)) :
    checkedRecovery fuel false s a = recoveryBlackCountBalance fuel s a := by
  induction fuel generalizing path s a v ch n with
  | zero => omega
  | succ fuel ih =>
    cases path with
    | nil =>
      have hpar : s.parent a = nilNode := h.parent_eq
      have hcol : s.getColor a = .black := by rw [Rb.getColor, h.mem_node, hv]
      simp [checkedRecovery, recoveryBlackCountBalance, hpar, hcol]
    | cons f fs =>
      have hparts := hp
      obtain ⟨hsib, hred, hfs⟩ := hparts
      by_cases hf : f.v.color = .red
      · exact checkedRecovery_redParent fuel h hv hf hp
      have hfb := Color.eq_black hf
      cases hb : f.sib with
      | nil => simp [hb] at hsib
      | node b w bch =>
        rw [checkedRecovery_eq fuel h hv hb, recovery_eq fuel h hv hb]
        split_ifs with hall hpar hw hrot
        · -- everything is black: the parent is short in turn
          have h₁ : Shape (s.setColor b .red) (fill fs (.node f.a f.v (pair f.side (.node a v ch)
              (.node b (w.paint .red) bch)))) := h.setColor_sib hb .red
          rw [hfb, Color.weight] at hfs
          exact ih (by simp at hfuel; omega) h₁ hfb hfs
        · rfl
        · -- the node gets a red parent, so the next call is the last one
          obtain ⟨fuel, rfl⟩ : ∃ k, fuel = k + 1 := ⟨fuel - 1, by simp at hfuel; omega⟩
          obtain ⟨s₁, g, hs₁, hg, hhole, hk⟩ := recovery_redSib h (by rw [pair_eta, hb]) hw hp
          rw [hs₁]
          exact checkedRecovery_redParent fuel hk.shape hv rfl hhole
        · exact absurd rfl hrot
        · rfl
        · rfl

/-- The fix-up and the splice that end the removal. -/
def spliceWith (fix : Rb → ℕ → Option Rb) (s : Rb) (target child : ℕ) : Option (Bool × Rb) := do
  let s₂ ← if s.getColor target = .black then fix s target else pure s
  return (true, (s₂.replaceChild target child).freeMem target)

/-- The removal once the search has found the node of the key. -/
theorem removeWith_found (fix : Rb → ℕ → Option Rb) (h : Shape s (fill path (.node a v ch)))
    (hv : v.key = key) (htr : traverse s key = some (Shape.slotOf path, holeParent path)) :
    removeWith fix s key =
      if s.child a .left ≠ nilNode ∧ s.child a .right ≠ nilNode then
        (getMaximum s s.loopBound (s.child a .left)).bind fun b =>
          spliceWith fix (s.setKey a (s.key b)) b ((s.setKey a (s.key b)).child b .left)
      else spliceWith fix s a (if s.child a .left ≠ nilNode then s.child a .left
        else s.child a .right) := by
  have hroot : s.root ≠ nilNode := by
    rw [h.root]
    exact fun hz => fill_node_ne_nil (h.linked.addr_eq_zero.mp hz)
  have hkey : s.key a = key := by rw [Rb.key, h.mem_node, ← hv]
  have hstop : ¬ (s.key a ≠ key ∨ a = nilNode) := by simp [hkey, h.node_ne_nil]
  simp only [removeWith, if_neg hroot, htr, h.load_slotOf, BinTree.addr_node, if_neg hstop,
    spliceWith, Option.bind_eq_bind, Option.bind_some, Option.pure_def]

/-- The fix-ups agree wherever the hole of a red-black tree is to be one black node short. -/
def AgreeOnHoles (fix fix' : Rb → ℕ → Option Rb) : Prop :=
  ∀ s path a v ch n, Shape s (fill path (.node a v ch)) → v.color = .black →
    HoleOk path (n + 1) → fix s a = fix' s a

theorem AgreeOnHoles.spliceWith_eq (hfix : AgreeOnHoles fix fix')
    (h : Shape s (fill path (.node a v ch))) (hok : RootOk (fill path (.node a v ch))) (c : ℕ) :
    spliceWith fix s a c = spliceWith fix' s a c := by
  obtain ⟨m, hc, -, hhole⟩ := rootOk_fill.mp hok
  have hcol : s.getColor a = v.color := by rw [Rb.getColor, h.mem_node]
  obtain ⟨-, k, rfl, -⟩ := hc
  rw [spliceWith, spliceWith, hcol]
  by_cases hv : v.color = .black
  · rw [hv] at hhole
    rw [if_pos hv, if_pos hv, hfix s path a v ch k h hv hhole]
  · rw [if_neg hv, if_neg hv]

theorem AgreeOnHoles.removeWith_eq (hfix : AgreeOnHoles fix fix') (h : Inv s t) (key : ℤ) :
    removeWith fix s key = removeWith fix' s key := by
  by_cases ht : t = .nil
  · subst ht
    have hroot : s.root = nilNode := h.shape.root
    rw [removeWith, removeWith, if_pos hroot, if_pos hroot]
  obtain ⟨path, t', rfl, hb, hst, htr⟩ := traverse_spec h.shape h.sorted key
  cases t' with
  | nil => simp [removeWith, htr, h.shape.load_slotOf]
  | node a v ch =>
    rw [removeWith_found fix h.shape hst htr, removeWith_found fix' h.shape hst htr]
    split_ifs with htwo
    · have hl : ch .left ≠ .nil := by
        intro hl
        have hcl : s.child a .left = (ch .left).addr := h.shape.child_eq
        rw [hcl, hl] at htwo
        exact htwo.1 rfl
      obtain ⟨ps, b, w, x, hpred⟩ := h.exists_predecessor hl
      rw [hpred.maximum, Option.bind_some, Option.bind_some, hpred.key]
      exact hfix.spliceWith_eq hpred.shape hpred.colors _
    · exact hfix.spliceWith_eq h.shape h.colors _
    · exact hfix.spliceWith_eq h.shape h.colors _

/-- On every red-black tree `rb_remove` returns, with every assertion of the fix-up satisfied at
every entry. -/
theorem rbRemove_passes_checks (h : Inv s t) (key : ℤ) :
    ∃ ok s', rbRemove s key = some (ok, s') ∧ checkedRemove s key = some (ok, s') := by
  obtain ⟨ok, s', -, hr, -⟩ := rbRemove_spec h key
  have hfix : AgreeOnHoles (fun s a => checkedRecovery s.loopBound false s a)
      (fun s a => recoveryBlackCountBalance s.loopBound s a) := by
    intro s path a v ch n h hv hhole
    have hlen := h.length_le
    exact checkedRecovery_of_holeOk s.loopBound (by rw [Rb.loopBound]; omega) h hv hhole
  refine ⟨ok, s', hr, ?_⟩
  rw [checkedRemove, hfix.removeWith_eq h key, ← rbRemove_eq_removeWith, hr]

/-- A tree of two keys, after a removal, and the removal of one of them. -/
theorem twoKeys_pass_checks :
    ∃ s ok s', Run Step (rbCreateTree fun _ => nilCell) swappedHistory s ∧
      rbRemove s 1 = some (ok, s') ∧ checkedRemove s 1 = some (ok, s') := by
  obtain ⟨s, h⟩ := exists_run (step_of_checkedCall fun _ _ => true) (rbCreateTree fun _ => nilCell)
    [(1, .insert 2 20), (2, .insert 1 10), (3, .insert 3 30), (4, .remove 2), (4, .find 1)]
    (show _ = some swappedHistory by decide)
  have hrun := h.mono fun _ _ _ hs => hs.1
  obtain ⟨t, ht⟩ := inv_run hrun
  obtain ⟨ok, s', hr, hc⟩ := rbRemove_passes_checks ht 1
  exact ⟨s, ok, s', hrun, hr, hc⟩

end YwStorage.RbTree

import YwStorage.FbTree.Attempt

/-!
`fb_split_node` when anything may run out. A cascade of `f` full nodes allocates the halves of all
of them first, then a clone of the first node that is not full, and then redirects the word above
that node: from then on the tree in use has changed, and the other `f - 1` clones are still missing.
-/
namespace YwStorage.FbTree
open MultiTree Programs Prog Supply

variable {supply : Finset ℕ → Option ℕ} {s s₄ s₅ s' : Fbs} {R : Multiset ℕ} {n f i : ℕ}
  {stack up : List (ℕ × ℕ)}

/-- A word of a node in use has been redirected to a node of the guard. -/
structure Torn (s s' : Fbs) (q j np : ℕ) : Prop where
  new : np ∈ s'.mems
  notLive : np ∉ s.fbt.live
  word : s'.fbt.mem q = (s.fbt.mem q).setChild j np
  other : ∀ b ∈ s.fbt.live, b ≠ q → s'.fbt.mem b = s.fbt.mem b

/-- What a cascade of `f` full nodes does to the nodes that were in use. -/
structure Effect (supply : Finset ℕ → Option ℕ) (s s' : Fbs) (stack : List (ℕ × ℕ)) (f : ℕ) :
    Prop where
  later : Later s s'
  buf : s'.fbt.rootBuf s.fbt.rootPtr = s.fbt.rootBuf s.fbt.rootPtr
  kept : stack[f + 1]? = none ∨ grown supply (2 * f + 1) s.fbt.live = none → Kept s s'
  torn : ∀ q j, stack[f + 1]? = some (q, j) → grown supply (2 * f + 1) s.fbt.live ≠ none →
    ∃ np, Torn s s' q j np

/-- Nothing has changed yet, and there are not enough nodes for more. -/
theorem Effect.of_kept {ups : List (ℕ × ℕ)} (hin : Within s s' ups) (hkept : Kept s s')
    (hnone : stack[f + 1]? ≠ none → grown supply (2 * f + 1) s.fbt.live = none) :
    Effect supply s s' stack f := by
  refine ⟨hin.later, hin.buf, fun _ => hkept, fun q j hq hsome => ?_⟩
  exact absurd (hnone (by simp [hq])) hsome

/-- The effect of a cascade on the parent is that of the whole, as long as the rest only writes to
nodes that were not in use. -/
theorem Effect.below {pos : ℕ × ℕ} (hin : ∀ ups, Within s s₄ ups)
    (hg : grown supply 2 s.fbt.live = some s₄.fbt.live) (h : Effect supply s₄ s₅ up f)
    (hl : Later s₅ s') (hkeep : ∀ b ∈ s₄.fbt.live, s'.fbt.mem b = s₅.fbt.mem b)
    (hbuf : s'.fbt.rootBuf = s₅.fbt.rootBuf) (hup : ∀ pos ∈ up, pos.1 ∈ s.fbt.live) :
    Effect supply s s' (pos :: up) (f + 1) := by
  obtain ⟨hbuf₄, hptr₄⟩ := (hin [(0, 0)]).root (by simp)
  have hkept₄ : Kept s s₄ := (hin []).kept
  have hlater₄ := (hin []).later
  have hgrown : grown supply (2 * (f + 1) + 1) s.fbt.live =
      grown supply (2 * f + 1) s₄.fbt.live := by
    rw [show 2 * (f + 1) + 1 = 2 + (2 * f + 1) by omega, grown_trans hg]
  refine ⟨hlater₄.trans (h.later.trans hl), ?_, fun hcase => ?_, fun q j hq hsome => ?_⟩
  · rw [hbuf, ← hptr₄, h.buf, hbuf₄]
  · rw [List.getElem?_cons_succ, hgrown] at hcase
    intro b hb
    rw [hkeep b (hlater₄.live hb), h.kept hcase b (hlater₄.live hb), hkept₄ b hb]
  · rw [List.getElem?_cons_succ] at hq
    rw [hgrown] at hsome
    obtain ⟨np, ht⟩ := h.torn q j hq hsome
    have hqlive : q ∈ s.fbt.live := hup (q, j) (List.mem_of_getElem? hq)
    refine ⟨np, hl.memory ht.new, fun hin => ht.notLive (hlater₄.live hin), ?_, fun b hb hbq => ?_⟩
    · rw [hkeep q (hlater₄.live hqlive), ht.word, hkept₄ q hqlive]
    · rw [hkeep b (hlater₄.live hb), ht.other b (hlater₄.live hb) hbq, hkept₄ b hb]

/-- The guards and the list of nodes to free are large enough, `i` frames below the leaf. -/
def Roomy (i : ℕ) (path : Path ℕ ℕ n) : Prop := i + fullRun path ≤ 4 + (allFull path).toNat

/-- A cascade that has succeeded. -/
structure SplitDone (supply : Finset ℕ → Option ℕ) (s s' : Fbs) (path : Path ℕ ℕ n) (i : ℕ)
    (stack : List (ℕ × ℕ)) : Prop where
  effect : Effect supply s s' path.positions (fullRun path)
  sim : fbSplitNode (total supply) s.toFb path.positions = some (s'.toFb, stack)
  grown : grown supply (3 * fullRun path) s.fbt.live = some s'.fbt.live
  few : s'.freeNode.length ≤ 8
  free : s'.freeNode.length + 2 * (allFull path).toNat = 2 * fullRun path
  above : stack.tail ≠ []
  new : ∀ pos ∈ stack.tail.head?, pos.1 ∉ s.fbt.live
  locks : s'.nodeLock.length + missing s' stack.tail + 2 * (allFull path).toNat ≤
    i + 3 * fullRun path + 1
  mems : s'.mems.length ≤ 2 * i + 3 * fullRun path

/-- A cascade that has given up. -/
structure SplitFailed (supply : Finset ℕ → Option ℕ) (s s' : Fbs) (path : Path ℕ ℕ n) (i : ℕ) :
    Prop where
  effect : Effect supply s s' path.positions (fullRun path)
  cause : Roomy i path → grown supply (3 * fullRun path) s.fbt.live = none

/-- The state of a cascade that comes to the path, `i` frames below the leaf. -/
structure Reached (s : Fbs) (R : Multiset ℕ) (path : Path ℕ ℕ n) (t : Node ℕ ℕ n) (i : ℕ) :
    Prop where
  shape : Shape s.toFb R (plug path t)
  keys : AllKeys IsKey (plug path t).2
  full : path.width = 128
  free : s.freeNode = []
  smo : s.smoLock = true
  held : ∀ pos ∈ path.positions.head?, pos.1 ∈ s.nodeLock
  locks : s.nodeLock.length ≤ i + 1
  mems : s.mems.length ≤ 2 * i
  depth : i + path.length ≤ 9

/-- A cascade that has succeeded leaves a tree behind. -/
theorem SplitDone.tree {path : Path ℕ ℕ n} {t : Node ℕ ℕ n} (hfresh : FreshSupply supply)
    (h : Reached s R path t i) (hd : SplitDone supply s s' path i stack) :
    ∃ path', stack = path'.positions ∧
      SplitTree s.toFb s'.toFb R t path path' (allFull path).toNat ∧
      lost s'.toFb (plug path' t) = lost s.toFb (plug path t) + (allFull path).toNat := by
  obtain ⟨s₁, path', hsplit, hres, hlost, -⟩ := fbSplitNode_tree (fresh_total hfresh) path h.shape
    h.keys h.full (by
      have hfree : s.toFb.freeNode.length = 0 := by
        show s.freeNode.length = 0
        rw [h.free, List.length_nil]
      have hf := hd.free
      have hfew := hd.few
      omega)
  obtain ⟨rfl, rfl⟩ := Prod.mk.inj (Option.some.inj (hd.sim.symm.trans hsplit))
  exact ⟨path', rfl, hres, hlost⟩

section Frame
variable {a k l r : ℕ} {t : Node ℕ ℕ n} {pre post : List (ℕ × Node ℕ ℕ n)} {up : Path ℕ ℕ (n + 1)}

theorem Reached.width (h : Reached s R (.step a pre k post up) t i) :
    pre.length + post.length + 1 = 128 := h.full

theorem Reached.isFull (h : Reached s R (.step a pre k post up) t i) :
    (s.fbt.mem a).isFullNode := (full_iff_width h.shape h.keys).mpr h.full

theorem Reached.fullRun_eq (h : Reached s R (.step a pre k post up) t i) :
    fullRun (.step a pre k post up) = fullRun up + 1 := if_pos h.full

theorem Reached.allFull_eq (h : Reached s R (.step a pre k post up) t i) :
    allFull (.step a pre k post up) = allFull up := by
  rw [allFull, h.width]
  rfl

theorem Reached.mem_live (h : Reached s R (.step a pre k post up) t i) :
    ∀ pos ∈ up.positions, pos.1 ∈ s.fbt.live := fun pos hpos =>
  h.shape.mem_live (by
    rw [addrs_plug]
    simp [Path.addrs, position_mem hpos])

/-- If there is a node above the first one that is not full, the guards are not full yet. -/
theorem Reached.deep (h : Reached s R (.step a pre k post up) t i)
    (hpos : (Path.step a pre k post up).positions[fullRun (.step a pre k post up) + 1]? ≠ none) :
    i + fullRun up ≤ 6 := by
  have hdepth := h.depth
  rw [Ne, List.getElem?_eq_none_iff, length_positions, h.fullRun_eq] at hpos
  omega

/-- The tree after both halves have been filled is the one before. -/
theorem Reached.halves (hfresh : FreshSupply supply) (h : Reached s R (.step a pre k post up) t i)
    (hf : Filled supply s s₄ a (splitPoint pre.length).1 l r) :
    Shape s₄.toFb (l ::ₘ r ::ₘ R) (plug up (node a (pre ++ (k, t) :: post))) ∧
      (s₄.fbt.mem (splitCursor l r pre.length).1).key (splitCursor l r pre.length).2 ≠
        fbNilKey := by
  have hshape : Shape s.toFb R (plug up (node a (pre ++ (k, t) :: post))) := h.shape
  have hkeys : AllKeys IsKey (plug up (node a (pre ++ (k, t) :: post))).2 := h.keys
  have hwidth := h.width
  obtain ⟨-, hlt, -⟩ := splitPoint_spec (show pre.length < 128 by omega)
  have hlen : (pre ++ (k, t) :: post).length = 128 := by
    simp only [List.length_append, List.length_cons]
    omega
  have hkey : k < fbNilKey := keys_lt_nil hkeys (k, ptr t) (by simp)
  obtain ⟨es₁, e, es₂, hsplit, hsp⟩ := exists_cut (hlen.symm ▸ hlt)
  rw [hsplit] at hshape hlen ⊢
  obtain ⟨l', r', hl, hr, hs₄, hfl, hfr, -⟩ := writeHalves_spec (fresh_total hfresh) hshape
    (by simpa using hlen)
  obtain rfl : l = l' := hf.left.trans hl.symm
  obtain rfl : r = r' := hf.right.trans hr.symm
  rw [hsp, ← hf.sim] at hs₄ hfl hfr
  refine ⟨hs₄, ?_⟩
  have hcur := splitCursor_key hfl hfr hsplit (by omega) hsp
  rw [← show s₄.toFb.mem = s₄.fbt.mem from rfl, hcur]
  exact hkey.ne

/-- No halves. -/
theorem Reached.unfilled (h : Reached s R (.step a pre k post up) t i)
    (hin : ∀ ups, Within s s' ups) (hnone : s.mems.length < 15 → grown supply 2 s.fbt.live = none) :
    SplitFailed supply s s' (.step a pre k post up) i := by
  have hmems := h.mems
  have hdepth := h.depth
  rw [Path.length] at hdepth
  refine ⟨.of_kept (hin []) (hin []).kept fun hpos => ?_, fun hroomy => ?_⟩
  · have hdeep := h.deep hpos
    exact grown_none (hnone (by omega)) (by rw [h.fullRun_eq]; omega)
  · rw [Roomy, h.fullRun_eq] at hroomy
    have hbit := Bool.toNat_le (allFull (.step a pre k post up))
    exact grown_none (hnone (by omega)) (by rw [h.fullRun_eq]; omega)

end Frame

section Root
variable {a k l r : ℕ} {t : Node ℕ ℕ n} {pre post : List (ℕ × Node ℕ ℕ n)}

/-- The halves of a full root get a new root. -/
theorem wp_splitRoot (hfresh : FreshSupply supply) (h : Reached s R (.step a pre k post .top) t i)
    (hf : Filled supply s s₄ a (splitPoint pre.length).1 l r) :
    Wp (Fbs.fbMakeNewRoot supply fbLeftMostKey l ((s₄.fbt.mem r).key 0) r) s₄
      (fun np s' => SplitDone supply s s' (.step a pre k post .top) i
        (splitStack l r np pre.length 0 []))
      (fun s' => SplitFailed supply s s' (.step a pre k post .top) i) := by
  have hmems := h.mems
  have hlocks := h.locks
  have hrun : fullRun (.step a pre k post .top) = 1 := h.fullRun_eq
  have hall : allFull (.step a pre k post .top) = true := h.allFull_eq
  have hmems₄ := hf.mems
  obtain ⟨hbuf₄, hptr₄⟩ := (hf.within [(0, 0)]).root (by simp)
  have heffect : ∀ s', Within s₄ s' [] →
      Effect supply s s' (Path.positions (.step a pre k post .top)) 1 := by
    intro s' hin
    have hall := (hf.within []).trans hbuf₄ hptr₄ hin
    refine ⟨hall.later, hall.buf, fun _ => hall.kept, fun q j hq => ?_⟩
    simp [Path.positions] at hq
  refine (wp_fbMakeNewRoot hfresh ((hf.within []).later.smoLock.trans h.smo) _ _ _ _).mono
    (fun np s' hroot => ?_) fun s' hfail => ⟨?_, fun hroomy => ?_⟩
  · have hnew := hfresh _ _ hroot.new
    refine ⟨?_, ?_, ?_, ?_, ?_, by simp [splitStack], ?_, ?_, ?_⟩
    · rw [hrun]
      exact heffect s' hroot.within
    · exact fbSplitNode_root h.isFull hf.left hf.right hf.sim (h.halves hfresh hf).2 hroot.sim
    · rw [hrun, show 3 * 1 = 2 + 1 from rfl, grown_trans hf.grown, grown_one hroot.new,
        hroot.live]
    · rw [hroot.freeNode, hf.freeNode, h.free]
      simp
    · rw [hroot.freeNode, hf.freeNode, h.free, hrun, hall]
      rfl
    · rintro pos ⟨⟩ hin
      exact hnew ((hf.within []).later.live hin)
    · have := missing_le s' (splitStack l r np pre.length 0 []).tail
      rw [hroot.nodeLock, hf.nodeLock, hrun, hall, Bool.toNat_true]
      omega
    · have := hroot.mems
      rw [hrun]
      omega
  · rw [hrun]
    exact heffect s' hfail.1
  · rw [Roomy, hrun, hall, Bool.toNat_true] at hroomy
    have hnone := hfail.2 (by omega)
    rw [hrun, show 3 * 1 = 2 + 1 from rfl, grown_trans hf.grown]
    simp [grown, hnone]

end Root

section Inner
variable {a k l r p kp : ℕ} {t : Node ℕ ℕ n} {pre post : List (ℕ × Node ℕ ℕ n)}
  {ppre ppost : List (ℕ × Node ℕ ℕ (n + 1))} {up : Path ℕ ℕ (n + 2)}

theorem Within.lock {ups : List (ℕ × ℕ)} (h : Within s s' ups) (b : ℕ) :
    Within s (s'.lock b) ups :=
  ⟨h.later.trans (later_lock b), h.mem, h.buf, h.root⟩

theorem left_ne_nil (h : Reached s R (.step a pre k post (.step p ppre kp ppost up)) t i)
    (hf : Filled supply s s₄ a (splitPoint pre.length).1 l r) : l ≠ fbNilNode := fun he =>
  hf.new (he ▸ Multiset.mem_of_le h.shape.count (Multiset.mem_cons_self _ _))

theorem mem_mems_take {b : ℕ} (h : s.mems.length < 16) : b ∈ (s.take b).mems := by
  simp [Fbs.take, h]

theorem missing_cons {b j : ℕ} {ups : List (ℕ × ℕ)} (h : b ∈ s.nodeLock) :
    missing s ((b, j) :: ups) = 0 := by
  simp [missing, h]

/-- The halves are hung into the first node above that is not full. -/
theorem wp_splitFirst (hfresh : FreshSupply supply)
    (h : Reached s R (.step a pre k post (.step p ppre kp ppost up)) t i)
    (hf : Filled supply s s₄ a (splitPoint pre.length).1 l r)
    (hroom : ¬ (s₄.fbt.mem p).isFullNode) :
    Wp (Fbs.hangHalves supply a l r ((s₄.fbt.mem r).key 0) p ppre.length up.positions) (s₄.lock p)
      (fun np s' => SplitDone supply s s' (.step a pre k post (.step p ppre kp ppost up)) i
        (splitStack l r np pre.length ppre.length up.positions))
      (fun s' => SplitFailed supply s s' (.step a pre k post (.step p ppre kp ppost up)) i) := by
  obtain ⟨hshape, hcur⟩ := h.halves hfresh hf
  have hkeys : AllKeys IsKey
      (plug (.step p ppre kp ppost up) (node a (pre ++ (k, t) :: post))).2 := h.keys
  have hwidth := mt (full_iff_width hshape hkeys).mpr hroom
  have hle := width_le hshape.around
  have hrun : fullRun (.step a pre k post (.step p ppre kp ppost up)) = 1 := by
    rw [h.fullRun_eq]
    exact congrArg (· + 1) (if_neg hwidth)
  have hall : allFull (.step a pre k post (.step p ppre kp ppost up)) = false := by
    rw [h.allFull_eq, allFull, beq_eq_false_iff_ne.mpr hwidth, Bool.false_and]
  have hmems := h.mems
  have hlocks := h.locks
  have hmems₄ := hf.mems
  have hdepth := h.depth
  simp only [Path.length] at hdepth
  have hin₅ : ∀ ups, Within s (s₄.lock p) ups := fun ups => (hf.within ups).lock p
  obtain ⟨hbuf₅, hptr₅⟩ := (hin₅ [(0, 0)]).root (by simp)
  have hlock₅ : (s₄.lock p).nodeLock.length ≤ i + 2 := by
    rw [length_lock, hf.nodeLock]
    split_ifs <;> omega
  have hfree₅ : (s₄.lock p).freeNode = [] := hf.freeNode.trans h.free
  have hsmo₅ : (s₄.lock p).smoLock = true := (hin₅ []).later.smoLock.trans h.smo
  have hgrown₅ : grown supply 2 s.fbt.live = some (s₄.lock p).fbt.live := hf.grown
  have hget : ∀ pos, (Path.positions (.step a pre k post (.step p ppre kp ppost up)))[1 + 1]? =
      some pos ↔ pos ∈ up.positions.head? := by
    intro pos
    simp [Path.positions, List.head?_eq_getElem?]
  have hheld₅ : a ∈ (s₄.lock p).nodeLock := by
    refine (later_lock p).nodeLock ?_
    rw [hf.nodeLock]
    exact h.held (a, pre.length) rfl
  have hparent : up.positions.head? = none ∨ i ≤ 6 := by
    cases up with
    | top => exact .inl rfl
    | step q qpre qk qpost up =>
      rw [Path.length] at hdepth
      exact .inr (by omega)
  have hshape₅ : Shape (s₄.lock p).toFb (l ::ₘ r ::ₘ R)
      (plug (.step p ppre kp ppost up) (node a (pre ++ (k, t) :: post))) := hshape
  refine (wp_hangHalves hfresh hshape₅ (by omega) (left_ne_nil h hf) hheld₅ (mem_lock s₄ p)
    hsmo₅).mono (fun np s' hhung => ?_) fun s' hfail => ?_
  · have hin := (hin₅ up.positions).trans hbuf₅ hptr₅ hhung.within
    have hnew := hfresh _ _ hhung.new
    have hnot : np ∉ s.fbt.live := fun hlive => hnew ((hin₅ []).later.live hlive)
    have hgrown : grown supply (2 + 1) s.fbt.live = some s'.fbt.live := by
      rw [grown_trans hgrown₅, grown_one hhung.new, hhung.live]
    obtain ⟨s₆, s₇, hclone, hredir, hswap⟩ := hhung.sim
    refine ⟨⟨hin.later, hin.buf, fun hcase b hb => ?_, fun q j hq _ => ⟨np, ?_, hnot, ?_, ?_⟩⟩,
      ?_, ?_, ?_, ?_, by simp [splitStack], ?_, ?_, ?_⟩
    · refine hin.mem b hb fun pos hpos => ?_
      rw [hrun] at hcase
      rcases hcase with hcase | hcase
      · rw [(hget pos).mpr hpos] at hcase
        cases hcase
      · rw [hcase] at hgrown
        cases hgrown
    · rw [hrun] at hq
      have hroom : (s₄.lock p).mems.length < 16 := by
        rcases hparent with hnone | hsmall
        · rw [(hget (q, j)).mp hq] at hnone
          cases hnone
        · exact (show s₄.mems.length < 16 by omega)
      rw [hhung.mems]
      exact mem_mems_take hroom
    · rw [hrun] at hq
      have hpos := (hget (q, j)).mp hq
      have hlive := h.mem_live (q, j) (List.mem_cons_of_mem _ (List.mem_of_head? hpos))
      rw [hhung.head (q, j) hpos, (hin₅ []).kept q hlive]
    · rw [hrun] at hq
      refine fun b hb hbq => hin.mem b hb fun pos hpos => ?_
      obtain rfl : pos = (q, j) := Option.some.inj (((hget pos).mpr hpos).symm.trans hq)
      exact hbq
    · refine fbSplitNode_inner h.isFull hf.left hf.right hf.sim hcur ?_ hshape.around.child_eq
        hclone hredir hswap
      exact if_neg hroom
    · rw [hrun]
      exact hgrown
    · rw [hhung.free, hfree₅]
      simp
    · rw [hhung.free, hfree₅, hrun, hall]
      rfl
    · rintro pos ⟨⟩ hlive
      exact hnot hlive
    · have hlocks' := hhung.locks
      have hmissing := missing_le (s₄.lock p) up.positions
      rw [splitStack, List.tail_cons, missing_cons hhung.held, hrun, hall, Bool.toNat_false]
      omega
    · have := length_mems_take (s₄.lock p) np
      have hmems₅ : (s₄.lock p).mems = s₄.mems := rfl
      rw [hhung.mems, hrun]
      rw [hmems₅] at this
      omega
  · obtain ⟨hfin, hcause⟩ := hfail
    have hin := (hin₅ up.positions).trans hbuf₅ hptr₅ hfin
    have hsmall : i ≤ 6 → grown supply (2 + 1) s.fbt.live = none ∧ Kept s s' := by
      intro hi
      obtain ⟨hnone, hkept⟩ := hcause (by omega) (by simp [hfree₅])
        (show s₄.mems.length < 16 by omega)
      refine ⟨?_, (hin₅ []).kept.trans (hin₅ []).later hkept⟩
      rw [grown_trans hgrown₅]
      simp [grown, hnone]
    refine ⟨?_, fun hroomy => ?_⟩
    · rw [hrun]
      rcases hparent with hnone | hi
      · refine .of_kept hin (fun b hb => hin.mem b hb (by simp [hnone])) fun hpos => ?_
        obtain ⟨pos, hpos⟩ := Option.ne_none_iff_exists'.mp hpos
        rw [(hget pos).mp hpos] at hnone
        cases hnone
      · exact .of_kept hin (hsmall hi).2 fun _ => (hsmall hi).1
    · rw [Roomy, hrun, hall, Bool.toNat_false] at hroomy
      rw [hrun]
      exact (hsmall (by omega)).1

/-- The cascade has come to the parent. -/
theorem Reached.parent (hfresh : FreshSupply supply)
    (h : Reached s R (.step a pre k post (.step p ppre kp ppost up)) t i)
    (hf : Filled supply s s₄ a (splitPoint pre.length).1 l r)
    (hfull : (s₄.fbt.mem p).isFullNode) :
    Reached (s₄.lock p) (l ::ₘ r ::ₘ R) (.step p ppre kp ppost up)
      (node a (pre ++ (k, t) :: post)) (i + 1) := by
  obtain ⟨hshape, -⟩ := h.halves hfresh hf
  have hkeys : AllKeys IsKey
      (plug (.step p ppre kp ppost up) (node a (pre ++ (k, t) :: post))).2 := h.keys
  have hlocks := h.locks
  have hmems := h.mems
  have hmems₄ := hf.mems
  have hdepth := h.depth
  refine ⟨hshape, hkeys, (full_iff_width hshape hkeys).mp hfull, hf.freeNode.trans h.free,
    (hf.within []).later.smoLock.trans h.smo, ?_, ?_, ?_, ?_⟩
  · rintro pos ⟨⟩
    exact mem_lock s₄ p
  · rw [length_lock, hf.nodeLock]
    split_ifs <;> omega
  · show s₄.mems.length ≤ _
    omega
  · rw [Path.length] at hdepth
    omega

/-- The guard of the locks has filled up above. -/
theorem SplitDone.locked (h : Reached s R (.step a pre k post (.step p ppre kp ppost up)) t i)
    (hf : Filled supply s s₄ a (splitPoint pre.length).1 l r)
    (hd : SplitDone supply (s₄.lock p) s₅ (.step p ppre kp ppost up) (i + 1) stack)
    (hlocked : 16 ≤ s₅.nodeLock.length) :
    SplitFailed supply s s₅ (.step a pre k post (.step p ppre kp ppost up)) i := by
  have hin₅ : ∀ ups, Within s (s₄.lock p) ups := fun ups => (hf.within ups).lock p
  refine ⟨?_, fun hroomy => ?_⟩
  · rw [h.fullRun_eq]
    exact .below hin₅ hf.grown hd.effect (.refl s₅) (fun _ _ => rfl) rfl h.mem_live
  · have hlocks := hd.locks
    have hbit := Bool.toNat_le (allFull (.step p ppre kp ppost up))
    rw [Roomy, h.fullRun_eq, h.allFull_eq] at hroomy
    omega

/-- A cascade that has failed above. -/
theorem SplitFailed.below (h : Reached s R (.step a pre k post (.step p ppre kp ppost up)) t i)
    (hf : Filled supply s s₄ a (splitPoint pre.length).1 l r)
    (hd : SplitFailed supply (s₄.lock p) s' (.step p ppre kp ppost up) (i + 1)) :
    SplitFailed supply s s' (.step a pre k post (.step p ppre kp ppost up)) i := by
  have hin₅ : ∀ ups, Within s (s₄.lock p) ups := fun ups => (hf.within ups).lock p
  refine ⟨?_, fun hroomy => ?_⟩
  · rw [h.fullRun_eq]
    exact .below hin₅ hf.grown hd.effect (.refl s') (fun _ _ => rfl) rfl h.mem_live
  · rw [Roomy, h.fullRun_eq, h.allFull_eq] at hroomy
    have hnone := hd.cause (by rw [Roomy]; omega)
    have hnone' : grown supply (2 + 3 * fullRun (.step p ppre kp ppost up)) s.fbt.live = none := by
      rw [grown_trans hf.grown]
      exact hnone
    exact grown_none hnone' (by rw [h.fullRun_eq]; omega)

/-- The halves are hung into a parent that has been split before. -/
theorem wp_splitNext {p₁ i₁ : ℕ} {ups : List (ℕ × ℕ)} (hfresh : FreshSupply supply)
    (h : Reached s R (.step a pre k post (.step p ppre kp ppost up)) t i)
    (hf : Filled supply s s₄ a (splitPoint pre.length).1 l r) (hfull : (s₄.fbt.mem p).isFullNode)
    (hd : SplitDone supply (s₄.lock p) s₅ (.step p ppre kp ppost up) (i + 1) ((p₁, i₁) :: ups)) :
    Wp (Fbs.hangHalves supply a l r ((s₄.fbt.mem r).key 0) p₁ i₁ ups) (s₅.lock p₁)
      (fun np s' => SplitDone supply s s' (.step a pre k post (.step p ppre kp ppost up)) i
        (splitStack l r np pre.length i₁ ups))
      (fun s' => SplitFailed supply s s' (.step a pre k post (.step p ppre kp ppost up)) i) := by
  have hin₄ : ∀ ups, Within s (s₄.lock p) ups := fun ups => (hf.within ups).lock p
  have hreach := h.parent hfresh hf hfull
  have hlater₅ := hd.effect.later
  obtain ⟨path₅, hstack, htree, -⟩ := hd.tree hfresh hreach
  cases path₅ with
  | top => cases hstack
  | step q₁ ppre₁ kp₁ ppost₁ up₁ =>
    obtain ⟨⟨rfl, rfl⟩, rfl⟩ : (p₁ = q₁ ∧ i₁ = ppre₁.length) ∧ ups = up₁.positions := by
      simpa [Path.positions] using hstack
    have hshape₅ : Shape (s₅.lock p₁).toFb (l ::ₘ r ::ₘ R)
        (plug (.step p₁ ppre₁ kp₁ ppost₁ up₁) (node a (pre ++ (k, t) :: post))) := htree.shape
    have hheld : a ∈ (s₅.lock p₁).nodeLock := by
      refine (later_lock p₁).nodeLock (hlater₅.nodeLock ((later_lock p).nodeLock ?_))
      rw [hf.nodeLock]
      exact h.held (a, pre.length) rfl
    have hsmo : (s₅.lock p₁).smoLock = true := hlater₅.smoLock.trans hreach.smo
    have hroom : ppre₁.length + ppost₁.length + 1 < 128 := htree.room
    have heffect : ∀ s', Within (s₅.lock p₁) s' up₁.positions → Effect supply s s'
        (Path.positions (.step a pre k post (.step p ppre kp ppost up)))
        (fullRun (.step a pre k post (.step p ppre kp ppost up))) := by
      intro s' hin
      rw [h.fullRun_eq]
      refine .below hin₄ hf.grown hd.effect ((later_lock p₁).trans hin.later) (fun b hb => ?_)
        (hin.root hd.above).1 h.mem_live
      exact hin.mem b (hlater₅.live hb) fun pos hpos he => hd.new pos hpos (he ▸ hb)
    have hgrown₅ : grown supply (2 + 3 * fullRun (.step p ppre kp ppost up)) s.fbt.live =
        some (s₅.lock p₁).fbt.live := by
      rw [grown_trans hf.grown]
      exact hd.grown
    have hfree₅ : (s₅.lock p₁).freeNode = s₅.freeNode := rfl
    have hmems₅ : (s₅.lock p₁).mems = s₅.mems := rfl
    have hlock₅ : (s₅.lock p₁).nodeLock.length ≤ s₅.nodeLock.length + 1 := by
      rw [length_lock]
      split_ifs <;> omega
    have hlocks := hd.locks
    have hfree := hd.free
    have hmems := hd.mems
    rw [List.tail_cons] at hlocks
    refine (wp_hangHalves hfresh hshape₅ hroom (left_ne_nil h hf) hheld (mem_lock s₅ p₁)
      hsmo).mono (fun np s' hhung => ?_) fun s' hfail => ⟨heffect s' hfail.1, fun hroomy => ?_⟩
    · obtain ⟨s₆, s₇, hclone, hredir, hswap⟩ := hhung.sim
      have hfew := hhung.few
      refine ⟨heffect s' hhung.within, ?_, ?_, ?_, ?_, by simp [splitStack], ?_, ?_, ?_⟩
      · refine fbSplitNode_inner h.isFull hf.left hf.right hf.sim (h.halves hfresh hf).2 ?_
          hshape₅.around.child_eq hclone hredir hswap
        exact (if_pos hfull).trans hd.sim
      · rw [h.fullRun_eq, show 3 * (fullRun (.step p ppre kp ppost up) + 1) =
          2 + 3 * fullRun (.step p ppre kp ppost up) + 1 by omega, grown_trans hgrown₅,
          grown_one hhung.new, hhung.live]
      · rw [hhung.free, List.length_append]
        exact Nat.add_le_add hfew le_rfl
      · rw [hhung.free, hfree₅, h.fullRun_eq, h.allFull_eq, List.length_append]
        simp only [List.length_cons, List.length_nil]
        omega
      · rintro pos ⟨⟩ hlive
        exact hfresh _ _ hhung.new (hlater₅.live ((hin₄ []).later.live hlive))
      · have hlocks' := hhung.locks
        have hmissing : missing (s₅.lock p₁) up₁.positions ≤ missing s₅ up₁.positions :=
          missing_mono (later_lock p₁).nodeLock
        rw [splitStack, List.tail_cons, missing_cons hhung.held, h.fullRun_eq, h.allFull_eq]
        omega
      · have := length_mems_take (s₅.lock p₁) np
        rw [hhung.mems, h.fullRun_eq]
        rw [hmems₅] at this
        omega
    · rw [Roomy, h.fullRun_eq, h.allFull_eq] at hroomy
      have hbit := Bool.toNat_le (allFull (.step p ppre kp ppost up))
      rw [hfree₅, hmems₅] at hfail
      obtain ⟨hnone, -⟩ := hfail.2 (by omega) (by omega) (by omega)
      rw [h.fullRun_eq, show 3 * (fullRun (.step p ppre kp ppost up) + 1) =
          2 + 3 * fullRun (.step p ppre kp ppost up) + 1 by omega, grown_trans hgrown₅]
      simp [grown, hnone]

end Inner

/-- Every run of `fb_split_node` from the leaf on: no assertion fails. -/
theorem wp_fbSplitNode (hfresh : FreshSupply supply) (path : Path ℕ ℕ n) {t : Node ℕ ℕ n}
    (h : Reached s R path t i) :
    Wp (Fbs.fbSplitNode supply path.positions) s
      (fun stack s' => SplitDone supply s s' path i stack)
      (fun s' => SplitFailed supply s s' path i) := by
  induction path generalizing s R i with
  | top => exact absurd h.full (by simp [Path.width])
  | @step n a pre k post up ih =>
    rw [Path.positions, Fbs.fbSplitNode]
    simp only [wp_bind, wp_fetch, wp_assert]
    refine ⟨h.isFull, (wp_fillHalves hfresh a _).mono (fun lr s₄ hf => ?_)
      fun s' hfail => h.unfilled hfail.1 hfail.2⟩
    obtain ⟨l, r⟩ := lr
    refine ⟨(h.halves hfresh hf).2, ?_⟩
    cases up with
    | top =>
      simp only [Path.positions, wp_bind, wp_pure]
      exact wp_splitRoot hfresh h hf
    | step p ppre kp ppost up =>
      simp only [Path.positions, wp_bind]
      refine Fbs.wp_wLock (fun hlocked => ?_) fun _ => ?_
      · have hlocks := h.locks
        have hdepth := h.depth
        rw [hf.nodeLock] at hlocked
        simp only [Path.length] at hdepth
        omega
      by_cases hfull : (s₄.fbt.mem p).isFullNode
      · simp only [hfull, if_true, wp_bind, wp_pure]
        have hreach := h.parent hfresh hf hfull
        refine (ih hreach).mono (fun stack s₅ hd => ?_) fun s' hd => hd.below h hf
        cases stack with
        | nil => exact absurd rfl hd.above
        | cons pos ups =>
          obtain ⟨p₁, i₁⟩ := pos
          refine Fbs.wp_wLock (fun hlocked => ?_) fun _ => ?_
          · exact hd.locked h hf hlocked
          · simp only [wp_bind, wp_pure]
            exact wp_splitNext hfresh h hf hfull hd
      · simp only [hfull, if_false, wp_pure, wp_bind]
        exact wp_splitFirst hfresh h hf hfull

end YwStorage.FbTree

import YwStorage.FbTree.Cascade

/-!
One call of `_fb_insert` or `_fb_remove` when anything may run out: it does what the unguarded
function does and keeps the counts, or it gives up.
-/
namespace YwStorage.FbTree
open MultiTree Programs Prog Supply

variable {supply : Finset ℕ → Option ℕ} {s s' : Fbs} {t t' : Fbt} {T : Σ N, Node ℕ ℕ N}
  {smoLock : Bool} {a k p key d : ℕ}

/-- The counts have followed the nodes and the keys, of which there are `d` more. -/
structure Booked (t t' : Fbt) (d : ℤ) : Prop where
  keyCount : t'.keyCount = t.keyCount + d
  nodeCount : t'.nodeCount - t'.live.card = t.nodeCount - t.live.card
  clean : Clean t → Clean t'
  known : ∀ a, Known t a → Known t' a

/-- A call that has given up and left the tree alone. -/
structure Intact (t t' : Fbt) : Prop where
  mem : ∀ a ∈ t.live, t'.mem a = t.mem a
  live : t.live ⊆ t'.live
  root : t'.root = t.root
  level : t'.level = t.level

theorem Intact.sound (h : Intact t t') (hs : Sound t.toFb T) : Sound t'.toFb T := by
  refine ⟨⟨?_, ?_, ?_, ?_⟩, hs.keys, rfl⟩
  · exact h.root.trans hs.shape.root
  · exact h.level.trans hs.shape.level
  · exact linked_congr hs.shape.linked fun b hb => h.mem b (hs.shape.mem_live hb)
  · exact hs.shape.count.trans (Finset.val_le_iff.mpr h.live)

/-- Rolling back restores the root and takes away the nodes of the guard only. -/
theorem intact_rollback (hl : Later (.start t smoLock) s') (hk : Kept (.start t smoLock) s')
    (hbuf : s'.fbt.rootBuf t.rootPtr = t.rootBuf t.rootPtr) : Intact t s'.rollback := by
  obtain ⟨new, hnew, hout⟩ := hl.mems
  have horg : s'.orgRoot = t.rootPtr := hl.orgRoot
  refine ⟨hk, fun b hb => ?_, ?_, ?_⟩
  · refine Finset.mem_sdiff.mpr ⟨hl.live hb, fun hin => hout b ?_ hb⟩
    rw [List.mem_toFinset, hnew] at hin
    exact hin
  · simp only [Fbs.rollback, Fbt.root, horg, hbuf]
  · simp only [Fbs.rollback, Fbt.level, horg, hbuf]

theorem rollback_start (t : Fbt) (smoLock : Bool) (held : List ℕ) :
    ({ Fbs.start t smoLock with nodeLock := held } : Fbs).rollback = t := by
  simp [Fbs.rollback, Fbs.start]

section Commit
variable (hl : Later (.start t smoLock) s') (hnodup : s'.freeNode.Nodup)
  (hlive : ∀ a ∈ s'.freeNode, a ∈ s'.fbt.live)
include hl hnodup hlive

theorem booked_commit (d : ℤ) : Booked t ({ s' with keyCount := d } : Fbs).committed.fbt d := by
  have hsub : s'.freeNode.toFinset ⊆ s'.fbt.live := fun b hb => hlive b (List.mem_toFinset.mp hb)
  have hcard := Finset.card_sdiff_add_card_eq_card hsub
  rw [List.toFinset_card_of_nodup hnodup] at hcard
  have hgrow : (s'.fbt.live.card : ℤ) - s'.allocCount = t.live.card - 0 := hl.card
  have hkeys : s'.fbt.keyCount = t.keyCount := hl.keyCount
  have hnodes : s'.fbt.nodeCount = t.nodeCount := hl.nodeCount
  refine ⟨?_, ?_, fun hc => ?_, fun b hb => ?_⟩
  · simp only [Fbs.committed, hkeys]
  · simp only [Fbs.committed, hnodes]
    omega
  · obtain ⟨hrcu, hout⟩ := hl.clean hc
    refine ⟨List.nodup_append.mpr ⟨hnodup, hrcu, ?_⟩, fun b hb hin => ?_⟩
    · rintro b hb c hc' rfl
      exact hout b hc' (hlive b hb)
    · obtain ⟨hin, hnot⟩ := Finset.mem_sdiff.mp hin
      rcases List.mem_append.mp hb with hb | hb
      · exact hnot (List.mem_toFinset.mpr hb)
      · exact hout b hb hin
  · rcases hl.known b hb with hb | hb
    · by_cases hfree : b ∈ s'.freeNode
      · exact .inr (List.mem_append_left _ hfree)
      · exact .inl (Finset.mem_sdiff.mpr ⟨hb, fun hin => hfree (List.mem_toFinset.mp hin)⟩)
    · exact .inr (List.mem_append_right _ hb)

end Commit

theorem commit_toFb (hnodup : s'.freeNode.Nodup) :
    s'.toFb.commit = some s'.committed.fbt.toFb := by
  have hnodup : s'.toFb.freeNode.Nodup := hnodup
  simp only [Fb.commit, guard_bind hnodup]
  rfl

/-- How a run of a body ends. -/
theorem run_cases {body : Prog Fbs (FbResult × Bool)} {Q : FbResult × Bool → Fbs → Prop}
    {E : Fbs → Prop} (h : Wp body (.start t smoLock) Q E) :
    (∃ r s', Q (r, true) s' ∧ Fbs.run body t smoLock = some (some r, s'.fbt)) ∨
      (∃ r s', Q (r, false) s' ∧ Fbs.run body t smoLock = some (some r, s'.rollback)) ∨
      ∃ s', E s' ∧ Fbs.run body t smoLock = some (none, s'.rollback) := by
  rcases h.cases with ⟨⟨r, c⟩, s', hrun, hq⟩ | ⟨s', hrun, he⟩
  · cases c with
    | true => exact .inl ⟨r, s', hq, by rw [Fbs.run, hrun]⟩
    | false => exact .inr (.inl ⟨r, s', hq, by rw [Fbs.run, hrun]⟩)
  · exact .inr (.inr ⟨s', he, by rw [Fbs.run, hrun]⟩)

/-- A body that changes nothing. -/
theorem run_of_wp {body : Prog Fbs (FbResult × Bool)} {r : FbResult}
    (h : Wp body (.start t smoLock) (fun rc s' => rc.1 = r ∧
      (if rc.2 then s'.fbt else s'.rollback) = t) fun _ => False) :
    Fbs.run body t smoLock = some (some r, t) := by
  rcases run_cases h with ⟨_, s', ⟨rfl, heq⟩, hrun⟩ | ⟨_, s', ⟨rfl, heq⟩, hrun⟩ | ⟨_, hfalse, -⟩
  · rw [hrun, ← heq]
    rfl
  · rw [hrun, ← heq]
    rfl
  · exact hfalse.elim

/-- The call ends with `r` where the unguarded function does, or it gives up with `why`. -/
def Outcome (call : Option (Option FbResult × Fbt)) (t : Fbt) (plain : Option (FbResult × Fb))
    (r : FbResult) (d : ℤ) (why : Fbt → Prop) : Prop :=
  (∃ t', call = some (some r, t') ∧ plain = some (r, t'.toFb) ∧ Booked t t' d) ∨
    ∃ t', call = some (none, t') ∧ why t'

/-- A body that commits whenever it ends. -/
theorem outcome_of_wp {body : Prog Fbs (FbResult × Bool)} {plain : Option (FbResult × Fb)}
    {r : FbResult} {d : ℤ} {why : Fbt → Prop}
    (h : Wp body (.start t smoLock) (fun rc s' => rc = (r, true) ∧ plain = some (r, s'.fbt.toFb) ∧
      Booked t s'.fbt d) fun s' => why s'.rollback) :
    Outcome (Fbs.run body t smoLock) t plain r d why := by
  rcases run_cases h with ⟨_, s', ⟨⟨⟩, hplain, hb⟩, hrun⟩ | ⟨_, s', ⟨⟨⟩, -⟩, -⟩ | ⟨s', hwhy, hrun⟩
  · exact .inl ⟨s'.fbt, hrun, hplain, hb⟩
  · exact .inr ⟨s'.rollback, hrun, hwhy⟩

theorem wp_finish {E : Fbs → Prop} {d : ℤ} {plain : Option (FbResult × Fb)}
    (hl : Later (.start t smoLock) s') (hnodup : s'.freeNode.Nodup)
    (hlive : ∀ a ∈ s'.freeNode, a ∈ s'.fbt.live)
    (hplain : ∀ s, s'.toFb.commit = some s → plain = some (.success, s)) :
    Wp (Fbs.finish d) s' (fun rc s'' => rc = (.success, true) ∧
      plain = some (.success, s''.fbt.toFb) ∧ Booked t s''.fbt d) E := by
  simp only [Fbs.finish, wp_bind, wp_fetch, wp_put, wp_pure]
  refine Fbs.wp_commit hnodup hlive ⟨trivial, hplain _ (commit_toFb hnodup), ?_⟩
  exact booked_commit hl hnodup hlive d

theorem wp_firstLock {Q : Unit → Fbs → Prop} {E : Fbs → Prop} :
    Wp (Fbs.wLock a) (.start t smoLock) Q E ↔ Q () ((Fbs.start t smoLock).lock a) := by
  simp [Fbs.wLock, Fbs.start]

theorem not_early (hgo : smoLock = true ∨ 1 < t.level) : ¬ (t.level ≤ 1 ∧ smoLock = false) := by
  rintro ⟨hle, rfl⟩
  rcases hgo with hgo | hgo
  · cases hgo
  · exact absurd hgo (not_lt.mpr hle)

section Insert

theorem insertTry_early (hlevel : t.level ≤ 1) :
    t.insertTry supply key d false = some (some .smo, t) := by
  refine run_of_wp ?_
  have hearly : (Fbs.start t false).fbt.level ≤ 1 := hlevel
  simp only [Fbs.fbInsertBody, wp_bind, wp_fetch, hearly, and_self, if_true, wp_pure, true_and]
  exact rollback_start t false []

theorem insertTry_empty (hfresh : FreshSupply supply) (h : Sound t.toFb T) (hlevel : t.level = 0) :
    Outcome (t.insertTry supply key d true) t (fbInsertTry (total supply) t.toFb key d true)
      .success 1 fun t' => supply t.live = none ∧ Intact t t' := by
  refine outcome_of_wp ?_
  have hlevel' : (Fbs.start t true).fbt.level = 0 := hlevel
  simp only [Fbs.fbInsertBody, wp_bind, wp_fetch, hlevel', reduceCtorEq, and_false, if_false,
    if_true]
  refine (wp_fbMakeNewRoot hfresh rfl _ _ _ _).mono (fun np s' hroot => ?_) fun s' hfail => ?_
  · have hfree : s'.freeNode = [] := hroot.freeNode
    refine wp_finish hroot.within.later (by simp [hfree]) (by simp [hfree]) fun s hcommit => ?_
    have hroot' : t.toFb.makeNewRoot (total supply) key d fbNilKey fbNilNode =
        some (np, s'.toFb) := hroot.sim
    have hlevel'' : t.toFb.level = 0 := hlevel
    simp [fbInsertTry, hlevel'', hroot', hcommit]
  · exact ⟨hfail.2 (by simp [Fbs.start]), intact_rollback hfail.1.later hfail.1.kept hfail.1.buf⟩

/-- What a call comes to after the traversal. -/
theorem wp_insertAt {ps : List (ℕ × ℕ)} {i next : ℕ} {Q : FbResult × Bool → Fbs → Prop}
    {E : Fbs → Prop} (hlevel : t.level ≠ 0) (hgo : smoLock = true ∨ 1 < t.level)
    (ht : fbTraverse t.toFb key = ((a, i) :: ps, next))
    (hcheck : fbSmoCheck t.toFb ((a, i) :: ps) next = false) :
    Wp (Fbs.fbInsertBody supply key d smoLock) (.start t smoLock) Q E ↔
      if (t.mem a).key i = key then Q (.dup, false) (.start t smoLock)
      else if (t.mem a).isFullNode then
        if smoLock = false then Q (.smo, false) ((Fbs.start t smoLock).lock a)
        else Wp (Fbs.fbSplitNode supply ((a, i) :: ps)) ((Fbs.start t smoLock).lock a)
          (fun _ s₁ => Wp Fbs.commit s₁ (fun _ s₂ => Q (.retry, true) s₂) E) E
      else Wp (Fbs.fbCloningAndInsert supply a i key d) ((Fbs.start t smoLock).lock a)
        (fun b s₁ => Wp (Fbs.fbReplaceChild ps a b) s₁
          (fun _ s₂ => Wp (Fbs.finish 1) s₂ Q E) E) E := by
  have hlevel : (Fbs.start t smoLock).fbt.level ≠ 0 := hlevel
  have hearly : ¬ ((Fbs.start t smoLock).fbt.level ≤ 1 ∧ smoLock = false) := not_early hgo
  have hts : fbTraverse (Fbs.start t smoLock).toFb key = ((a, i) :: ps, next) := ht
  have hmem : (Fbs.start t smoLock).fbt.mem = t.mem := rfl
  have hcheck : fbSmoCheck (Fbs.start t smoLock).toFb ((a, i) :: ps) next = false := hcheck
  simp only [Fbs.fbInsertBody, wp_bind, wp_fetch, hearly, if_false, hlevel, hts, hmem]
  by_cases hk : (t.mem a).key i = key
  · simp only [hk, if_true, wp_pure]
  simp only [hk, if_false, wp_bind, wp_firstLock, hcheck, Bool.false_eq_true, and_false, wp_assert,
    true_and]
  by_cases hfull : (t.mem a).isFullNode
  · simp only [hfull, if_true]
    cases smoLock with
    | false => simp only [if_true, wp_pure]
    | true => simp only [reduceCtorEq, if_false, wp_bind, wp_pure]
  · simp only [hfull, if_false, wp_bind]

section Leaf
variable {pre post : List (ℕ × Node ℕ ℕ 0)} {up : Path ℕ ℕ 1}
  (h : Sound t.toFb (plug (.step a pre k post up) (data p)))
  (ht : fbTraverse t.toFb key = ((a, pre.length) :: up.positions, p))
include h ht

/-- What a call comes to that has found the cursor. -/
theorem wp_fbInsertBody {Q : FbResult × Bool → Fbs → Prop} {E : Fbs → Prop}
    (hgo : smoLock = true ∨ 1 < t.level) :
    Wp (Fbs.fbInsertBody supply key d smoLock) (.start t smoLock) Q E ↔
      if k = key then Q (.dup, false) (.start t smoLock)
      else if (t.mem a).isFullNode then
        if smoLock = false then Q (.smo, false) ((Fbs.start t smoLock).lock a)
        else Wp (Fbs.fbSplitNode supply ((a, pre.length) :: up.positions))
          ((Fbs.start t smoLock).lock a)
          (fun _ s₁ => Wp Fbs.commit s₁ (fun _ s₂ => Q (.retry, true) s₂) E) E
      else Wp (Fbs.fbCloningAndInsert supply a pre.length key d) ((Fbs.start t smoLock).lock a)
        (fun b s₁ => Wp (Fbs.fbReplaceChild up.positions a b) s₁
          (fun _ s₂ => Wp (Fbs.finish 1) s₂ Q E) E) E := by
  have hcur : (t.mem a).key pre.length = k := key_at_cursor h
  rw [wp_insertAt (level_ne_zero h) hgo ht (smoCheck_cursor h), hcur]

theorem insertTry_dup (hgo : smoLock = true ∨ 1 < t.level) (hkey : k = key) :
    t.insertTry supply key d smoLock = some (some .dup, t) := by
  refine run_of_wp ((wp_fbInsertBody h ht hgo).mpr ?_)
  rw [if_pos hkey]
  exact ⟨rfl, rollback_start t smoLock []⟩

theorem insertTry_smo (hlevel : 1 < t.level) (hkey : k ≠ key) (hfull : (t.mem a).isFullNode) :
    t.insertTry supply key d false = some (some .smo, t) := by
  refine run_of_wp ((wp_fbInsertBody h ht (.inr hlevel)).mpr ?_)
  rw [if_neg hkey, if_pos hfull, if_pos rfl]
  exact ⟨rfl, rollback_start t false _⟩

/-- A leaf with a free slot gets the entry, unless there is no node for its clone. -/
theorem insertTry_leaf (hfresh : FreshSupply supply) (hgo : smoLock = true ∨ 1 < t.level)
    (hkey : k ≠ key) (hwidth : pre.length + post.length + 1 < 128) :
    Outcome (t.insertTry supply key d smoLock) t
      (fbInsertTry (total supply) t.toFb key d smoLock) .success 1
      fun t' => supply t.live = none ∧ Intact t t' := by
  have hfull : ¬ (t.mem a).isFullNode := by
    have := full_iff_width h.shape h.keys
    rw [show t.toFb.mem = t.mem from rfl] at this
    rw [this]
    omega
  have haddr : ∀ x ∈ (Path.step a pre k post up).addrs, x ∈ t.live := fun x hx =>
    h.shape.mem_live (by rw [addrs_plug]; simp [hx])
  have halive : a ∈ t.live := haddr a (by simp [Path.addrs])
  have hnil : a ≠ fbNilNode := h.shape.ne_nil (by rw [addrs_plug]; simp [Path.addrs])
  refine outcome_of_wp ((wp_fbInsertBody h ht hgo).mpr ?_)
  rw [if_neg hkey, if_neg hfull]
  refine Fbs.wp_fbCloningAndInsert hnil (by omega)
    (fun hnone => ⟨hnone (show 0 < 16 by decide), intact_rollback (later_lock a) (.refl _) rfl⟩)
    fun b hs => ?_
  have hclone : t.toFb.cloningAndInsert (total supply) a pre.length key d = some (b,
      ({ t.toFb with live := insert b t.toFb.live } : Fb).write b
        (insertSlot (t.mem a) (t.mem b) (pre.length + 1) key d)) := by
    have hnew : total supply t.toFb.live = b := total_eq hs
    rw [cloningAndInsert_eq hnil (by omega), hnew]
    rfl
  have hup : ∀ x ∈ up.addrs, x ∈ t.live := fun x hx => haddr x (by simp [Path.addrs, hx])
  have hsmo : up.positions = [] → smoLock = true := by
    intro htop
    have hlevel : t.level = 0 + (Path.step a pre k post up).length := h.shape.around.level
    rw [Path.length, ← length_positions up, htop, List.length_nil] at hlevel
    exact hgo.resolve_right (by omega)
  refine (wp_replaceClone hfresh (s := (Fbs.start t smoLock).lock a) h.shape.around.parent hup
    h.nil_live halive (mem_lock _ a) hsmo (show 1 < 16 by decide)
    (fun _ => show 0 < 8 by decide) hs _).mono (fun _ s' hrep => ?_)
    fun s' hfail => absurd hfail.2 (show ¬ 8 ≤ 0 by decide)
  obtain ⟨hlater, hfree, hsim⟩ := hrep
  have hfree : s'.freeNode = [a] := hfree
  refine wp_finish ((later_lock a).trans hlater) (by simp [hfree]) ?_ fun s hcommit => ?_
  · rw [hfree, List.forall_mem_singleton]
    exact hlater.live halive
  · have hearly : ¬ (t.toFb.level ≤ 1 ∧ smoLock = false) := not_early hgo
    have hfull' : ¬ (t.toFb.mem a).isFullNode := hfull
    have hsim : (({ t.toFb with live := insert b t.toFb.live } : Fb).write b
        (insertSlot (t.mem a) (t.mem b) (pre.length + 1) key d)).replaceChild up.positions a b =
          some s'.toFb := hsim
    simp [fbInsertTry, hearly, level_ne_zero h, ht, key_at_cursor h, hkey, smoCheck_cursor h,
      hfull', hclone, hsim, hcommit]

/-- The start of a cascade at a full leaf. -/
theorem reached_start (hwidth : pre.length + post.length + 1 = 128) (hlevel : t.level ≤ 9) :
    Reached ((Fbs.start t true).lock a) 0 (.step a pre k post up) (data p) 0 := by
  have hlen : t.level = 0 + (Path.step a pre k post up).length := h.shape.around.level
  refine ⟨h.shape, h.keys, hwidth, rfl, rfl, ?_, le_rfl, le_rfl, by omega⟩
  rintro pos ⟨⟩
  exact mem_lock _ a

end Leaf

/-- The cascade of `f` full nodes changes a node in use and runs out afterwards: it gets its halves
and the first clone, but not all clones, or there is no room to free its nodes. -/
def Tears (supply : Finset ℕ → Option ℕ) (t : Fbt) (stack : List (ℕ × ℕ)) (f : ℕ) : Prop :=
  stack[f + 1]? ≠ none ∧ grown supply (2 * f + 1) t.live ≠ none ∧
    (5 ≤ f ∨ grown supply (3 * f) t.live = none)

/-- A node that is used and not in use. -/
theorem torn_reachable {n q j np : ℕ} {path : Path ℕ ℕ n} {x : Node ℕ ℕ n} {f : ℕ}
    (h : Sound t.toFb (plug path x)) (hpos : path.positions[f + 1]? = some (q, j))
    (hl : Later (.start t smoLock) s') (hbuf : s'.fbt.rootBuf t.rootPtr = t.rootBuf t.rootPtr)
    (ht : Torn (.start t smoLock) s' q j np) :
    np ∈ s'.rollback.toFb.nodes ∧ np ∉ s'.rollback.live := by
  refine ⟨?_, fun hin => (Finset.mem_sdiff.mp hin).2 (List.mem_toFinset.mpr ht.new)⟩
  obtain ⟨pre, k, post, up, x', hplug, rfl⟩ := plug_at path x hpos
  have hs : Sound t.toFb (plug (.step q pre k post up) x') := hplug ▸ h
  have horg : s'.orgRoot = t.rootPtr := hl.orgRoot
  have hnodup : (Path.step q pre k post up).addrs.Nodup := by
    obtain ⟨-, hd⟩ := Multiset.nodup_cons.mp hs.shape.nodup
    rw [addrs_plug] at hd
    exact (Multiset.nodup_add.mp (Multiset.nodup_add.mp (Multiset.nodup_add.mp hd).1).2.1).2.1
  have hroot : s'.rollback.root = t.root ∧ s'.rollback.level = t.level := by
    simp only [Fbs.rollback, Fbt.root, Fbt.level, horg, hbuf, and_self]
  have haround : Around s'.rollback.toFb (.step q pre k post up) np := by
    refine hs.shape.around.redirect hnodup hroot.1 hroot.2 ht.word fun b hb hbq => ?_
    refine ht.other b (hs.shape.mem_live ?_) hbq
    rw [addrs_plug]
    exact Multiset.mem_add.mpr (.inr hb)
  exact haround.mem_nodes (allKeys_plug.mp hs.keys).2

section Leaf
variable {pre post : List (ℕ × Node ℕ ℕ 0)} {up : Path ℕ ℕ 1}

/-- A full leaf is split, or the split has given up. -/
theorem insertTry_full (h : Sound t.toFb (plug (.step a pre k post up) (data p)))
    (ht : fbTraverse t.toFb key = ((a, pre.length) :: up.positions, p))
    (hfresh : FreshSupply supply) (hkey : k ≠ key)
    (hwidth : pre.length + post.length + 1 = 128) (hlevel : t.level ≤ 9) :
    let stack := (Path.step a pre k post up).positions
    let f := fullRun (.step a pre k post up)
    (¬ Tears supply t stack f ∧ ∃ t', t.insertTry supply key d true = some (some .retry, t') ∧
        Booked t t' 0 ∧ ∃ s₁ path', s₁.commit = some t'.toFb ∧
          SplitTree t.toFb s₁ 0 (data p) (.step a pre k post up) path'
            (allFull (.step a pre k post up)).toNat ∧
          lost s₁ (plug path' (data p)) =
            lost t.toFb (plug (.step a pre k post up) (data p)) +
              (allFull (.step a pre k post up)).toNat) ∨
      ∃ t', t.insertTry supply key d true = some (none, t') ∧
        (Tears supply t stack f → ∃ np ∈ t'.toFb.nodes, np ∉ t'.live) ∧
        (¬ Tears supply t stack f → Intact t t') ∧ (t.level ≤ 5 → ∃ live, supply live = none) := by
  intro stack f
  have hfull : (t.mem a).isFullNode := (full_iff_width h.shape h.keys).mpr hwidth
  have hreach := reached_start h ht hwidth hlevel
  have hlen : t.level = 0 + (Path.step a pre k post up).length := h.shape.around.level
  have hwp : Wp (Fbs.fbInsertBody supply key d true) (.start t true)
      (fun rc s' => rc = (.retry, true) ∧ ¬ Tears supply t stack f ∧ Booked t s'.fbt 0 ∧
        ∃ s₁ path', s₁.commit = some s'.fbt.toFb ∧
          SplitTree t.toFb s₁ 0 (data p) (.step a pre k post up) path'
            (allFull (.step a pre k post up)).toNat ∧
          lost s₁ (plug path' (data p)) =
            lost t.toFb (plug (.step a pre k post up) (data p)) +
              (allFull (.step a pre k post up)).toNat)
      (fun s' => SplitFailed supply ((Fbs.start t true).lock a) s' (.step a pre k post up) 0) := by
    refine (wp_fbInsertBody h ht (.inl rfl)).mpr ?_
    rw [if_neg hkey, if_pos hfull, if_neg (by simp)]
    refine (wp_fbSplitNode hfresh _ hreach).mono (fun stack' s' hd => ?_) fun _ hd => hd
    obtain ⟨path', -, htree, hlost⟩ := hd.tree hfresh hreach
    obtain ⟨hnodup, hlive⟩ := htree.shape.freeNode_ok
    have hlater := (later_lock a).trans hd.effect.later
    refine Fbs.wp_commit hnodup hlive
      ⟨rfl, ?_, ?_, s'.toFb, path', commit_toFb hnodup, htree, hlost⟩
    · rintro ⟨hpos, -, hrun | hnone⟩
      · rw [Ne, List.getElem?_eq_none_iff, length_positions] at hpos
        have hall : allFull (.step a pre k post up) = false := by
          rw [Bool.eq_false_iff]
          intro hall
          have := fullRun_of_allFull hall
          omega
        have hfree := hd.free
        have hfew := hd.few
        rw [hall, Bool.toNat_false] at hfree
        omega
      · have hgrown : grown supply (3 * f) t.live = some s'.fbt.live := hd.grown
        rw [hgrown] at hnone
        cases hnone
    · have hdelta : s'.keyCount = 0 := hlater.delta
      have hself : ({ s' with keyCount := 0 } : Fbs) = s' := by rw [← hdelta]
      rw [← hself]
      exact booked_commit hlater hnodup hlive 0
  rcases run_cases hwp with ⟨_, s', ⟨⟨⟩, hno, hb, hsplit⟩, hrun⟩ | ⟨_, _, ⟨⟨⟩, -⟩, -⟩ |
    ⟨s', hd, hrun⟩
  · exact .inl ⟨hno, s'.fbt, hrun, hb, hsplit⟩
  · have hlater := (later_lock a).trans hd.effect.later
    refine .inr ⟨s'.rollback, hrun, fun htears => ?_, fun hno => ?_, fun hlow => ?_⟩
    · obtain ⟨⟨q, j⟩, hpos⟩ := Option.ne_none_iff_exists'.mp htears.1
      obtain ⟨np, htorn⟩ := hd.effect.torn q j hpos htears.2.1
      exact ⟨np, torn_reachable h hpos hlater hd.effect.buf
        ⟨htorn.new, htorn.notLive, htorn.word, htorn.other⟩⟩
    · refine intact_rollback hlater (hd.effect.kept ?_) hd.effect.buf
      by_contra hcase
      rw [not_or] at hcase
      refine hno ⟨hcase.1, hcase.2, ?_⟩
      by_cases hrun : 5 ≤ f
      · exact .inl hrun
      · have hroomy : Roomy 0 (.step a pre k post up) :=
          (show 0 + f ≤ 4 + (allFull (.step a pre k post up)).toNat by omega)
        exact .inr (hd.cause hroomy)
    · have hroom := freeNode_room (.step a pre k post up) (by omega)
      have hroomy : Roomy 0 (.step a pre k post up) :=
        (show 0 + f ≤ 4 + (allFull (.step a pre k post up)).toNat by omega)
      exact exists_failure (hd.cause hroomy)

end Leaf
end Insert

section Remove

/-- The state of `_fb_remove` that comes to the path with the nodes below it to be freed. -/
structure Freeing {n : ℕ} (s : Fbs) (path : Path ℕ ℕ n) (p : ℕ) (smoLock : Bool) : Prop where
  around : Around s.toFb path p
  keys : path.allKeys IsKey
  count : fbNilNode ::ₘ (path.addrs + s.freeNode) ≤ s.fbt.live.val
  held : ∀ pos ∈ path.positions.head?, pos.1 ∈ s.nodeLock
  locks : s.nodeLock.length ≤ s.freeNode.length + 1
  mems : s.mems = []
  depth : s.freeNode.length + path.length ≤ 9
  smo : s.smoLock = smoLock
  go : smoLock = true ∨
    1 < path.length ∧ ∀ pos ∈ path.positions.head?, ¬ (s.fbt.mem pos.1).remainOneKey

section Freeing
variable {n : ℕ} {pre post : List (ℕ × Node ℕ ℕ n)} {up : Path ℕ ℕ (n + 1)}

theorem Freeing.live (h : Freeing s (.step a pre k post up) p smoLock) :
    ∀ x ∈ (Path.step a pre k post up).addrs, x ∈ s.fbt.live := fun x hx =>
  Multiset.mem_of_le h.count (by simp [hx])

/-- The node and the nodes to free are different nodes. -/
theorem Freeing.nodup (h : Freeing s (.step a pre k post up) p smoLock) :
    (s.freeNode ++ [a]).Nodup ∧ a ≠ fbNilNode := by
  have hd := Multiset.nodup_of_le h.count s.fbt.live.nodup
  obtain ⟨hnil, hd⟩ := Multiset.nodup_cons.mp hd
  obtain ⟨-, hfree, hdisj⟩ := Multiset.nodup_add.mp hd
  have ha : a ∈ (Path.step a pre k post up).addrs := by simp [Path.addrs]
  refine ⟨List.nodup_append.mpr ⟨hfree, List.nodup_singleton a, ?_⟩, ?_⟩
  · rintro b hb c hc rfl
    rw [List.mem_singleton.mp hc] at hb
    exact Multiset.disjoint_left.mp hdisj ha hb
  · rintro rfl
    exact hnil (Multiset.mem_add.mpr (.inl ha))

theorem Freeing.free_live (h : Freeing s (.step a pre k post up) p smoLock) :
    ∀ b ∈ s.freeNode ++ [a], b ∈ s.fbt.live := by
  rw [List.forall_mem_append, List.forall_mem_singleton]
  refine ⟨fun b hb => Multiset.mem_of_le h.count (by simp [hb]), h.live a (by simp [Path.addrs])⟩

/-- A node that would be left without a key is to be freed, and its parent comes next. -/
theorem Freeing.next {a' k' : ℕ} {pre' post' : List (ℕ × Node ℕ ℕ (n + 1))} {up : Path ℕ ℕ (n + 2)}
    (h : Freeing s (.step a [] k [] (.step a' pre' k' post' up)) p true) :
    Freeing ((s.push a).lock a') (.step a' pre' k' post' up) a true := by
  have hlocks := h.locks
  have hdepth := h.depth
  refine ⟨h.around.parent.congr rfl rfl fun _ _ => rfl, h.keys.2.2.2, ?_, ?_, ?_, h.mems, ?_,
    h.smo, .inl rfl⟩
  · refine le_trans (le_of_eq ?_) h.count
    show fbNilNode ::ₘ (_ + ((s.freeNode ++ [a] : List ℕ) : Multiset ℕ)) = _
    simp only [Path.addrs, ← Multiset.coe_add, Multiset.coe_singleton, addrsOf_nil]
    congr 1
    abel
  · rintro pos ⟨⟩
    exact mem_lock _ a'
  · rw [length_lock]
    show s.nodeLock.length + _ ≤ (s.freeNode ++ [a]).length + 1
    rw [List.length_append, List.length_singleton]
    split_ifs <;> omega
  · show (s.freeNode ++ [a]).length + _ ≤ 9
    rw [List.length_append, List.length_singleton]
    rw [Path.length] at hdepth
    omega

end Freeing

/-- What the loop has done when it ends. -/
def Removed {n : ℕ} (supply : Finset ℕ → Option ℕ) (s s' : Fbs) (path : Path ℕ ℕ n)
    (smoLock : Bool) : Prop :=
  Later s s' ∧ s'.freeNode.Nodup ∧ (∀ b ∈ s'.freeNode, b ∈ s'.fbt.live) ∧
    ∀ s₁, s'.toFb.commit = some s₁ →
      removeLoop (total supply) smoLock s.toFb path.positions = some s₁

section Loop
variable {n : ℕ} {pre post : List (ℕ × Node ℕ ℕ n)} {up : Path ℕ ℕ (n + 1)}

/-- The loop stops at a node that has another key, and leaves out the slot `i` of its clone. -/
theorem wp_removeSlot {i : ℕ} (hfresh : FreshSupply supply)
    (h : Freeing s (.step a pre k post up) p smoLock) (hmore : ¬ (s.fbt.mem a).remainOneKey)
    (hi : i < 128) :
    Wp (Fbs.fbRemoveLoop supply smoLock ((a, i) :: up.positions)) s
      (fun _ s' => Later s s' ∧ s'.freeNode.Nodup ∧ (∀ b ∈ s'.freeNode, b ∈ s'.fbt.live) ∧
        ∀ s₁, s'.toFb.commit = some s₁ →
          removeLoop (total supply) smoLock s.toFb ((a, i) :: up.positions) = some s₁)
      (fun s' => Within s s' [] ∧ (s.freeNode.length < 8 → ∃ live, supply live = none)) := by
  obtain ⟨hnodup, hnil⟩ := h.nodup
  have halive := h.live a (by simp [Path.addrs])
  have hlocks := h.locks
  have hdepth := h.depth
  rw [Path.length, ← length_positions] at hdepth
  rw [Fbs.fbRemoveLoop]
  simp only [wp_bind, wp_fetch, hmore, if_false]
  refine Fbs.wp_fbCloningAndRemove hnil hi (fun hnone => ⟨.refl s [], fun _ => ?_⟩) fun b hs => ?_
  · exact ⟨_, hnone (by simp [h.mems])⟩
  have hclone : s.toFb.cloningAndRemove (total supply) a i = some (b,
      ({ s.toFb with live := insert b s.toFb.live } : Fb).write b
        (removeSlot (s.fbt.mem a) (s.fbt.mem b) i)) := by
    have hnew : total supply s.toFb.live = b := total_eq hs
    rw [cloningAndRemove_eq hnil hi, hnew]
    rfl
  refine (wp_replaceClone hfresh h.around.parent ?_ ?_ halive (h.held (a, pre.length) rfl) ?_
    (by omega) ?_ hs _).mono (fun _ s' hd => ?_) fun s' hd => ⟨hd.1, fun hroom => ?_⟩
  · exact fun x hx => h.live x (by simp [Path.addrs, hx])
  · exact Multiset.mem_of_le h.count (Multiset.mem_cons_self _ _)
  · intro htop
    rw [h.smo]
    refine h.go.resolve_right fun hgo => ?_
    rw [Path.length, ← length_positions, htop] at hgo
    exact absurd hgo.1 (by simp)
  · intro hne
    have := List.length_pos_of_ne_nil hne
    omega
  · obtain ⟨hlater, hfree, hsim⟩ := hd
    have hmore' : ¬ (s.toFb.mem a).remainOneKey := hmore
    refine ⟨hlater, hfree ▸ hnodup, ?_, fun s₁ hcommit => ?_⟩
    · rw [hfree]
      exact fun b hb => hlater.live (h.free_live b hb)
    · rw [removeLoop]
      simp [hmore', hclone, hsim, hcommit]
  · exact absurd hd.2 (not_le.mpr hroom)

/-- The slot that is left out is the one of the path. -/
theorem wp_removeStop (hfresh : FreshSupply supply)
    (h : Freeing s (.step a pre k post up) p smoLock) (hmore : ¬ (s.fbt.mem a).remainOneKey) :
    Wp (Fbs.fbRemoveLoop supply smoLock (Path.step a pre k post up).positions) s
      (fun _ s' => Removed supply s s' (.step a pre k post up) smoLock)
      (fun s' => Within s s' [] ∧ (s.freeNode.length + (Path.step a pre k post up).length ≤ 8 →
        ∃ live, supply live = none)) := by
  have hw := width_le h.around
  refine (wp_removeSlot hfresh h hmore (by omega)).mono (fun _ _ hd => hd) fun s' hd =>
    ⟨hd.1, fun hroom => hd.2 ?_⟩
  rw [Path.length] at hroom
  omega

end Loop

theorem pushFreeNode_eq (hlive : a ∈ s.fbt.live) (hroom : s.freeNode.length < 8) :
    s.toFb.pushFreeNode a = some (s.push a).toFb := by
  have hlive : a ∈ s.toFb.live := hlive
  have hroom : s.toFb.freeNode.length < fbStackSize := hroom
  simp only [Fb.pushFreeNode, guard_bind hlive, guard_bind hroom]
  rfl

/-- The loop at the end of `_fb_remove`. -/
theorem wp_fbRemoveLoop {n : ℕ} (hfresh : FreshSupply supply) (path : Path ℕ ℕ n)
    (hpath : path ≠ .top) (h : Freeing s path p smoLock) :
    Wp (Fbs.fbRemoveLoop supply smoLock path.positions) s
      (fun _ s' => Removed supply s s' path smoLock)
      (fun s' => Within s s' [] ∧
        (s.freeNode.length + path.length ≤ 8 → ∃ live, supply live = none)) := by
  induction path generalizing s p with
  | top => exact absurd rfl hpath
  | @step n a pre k post up ih =>
    by_cases hone : (s.fbt.mem a).remainOneKey
    · obtain ⟨hnodup, -⟩ := h.nodup
      have hfree := h.free_live
      have halive := h.live a (by simp [Path.addrs])
      have hlocks := h.locks
      have hdepth := h.depth
      have hone' : (s.toFb.mem a).remainOneKey := hone
      obtain ⟨rfl, rfl⟩ := nil_of_no_entries ((remainOne_iff_width h.around h.keys).mp hone)
      have hsmo : smoLock = true := h.go.resolve_right fun hgo => hgo.2 (a, 0) rfl hone
      subst hsmo
      rw [Path.positions, Fbs.fbRemoveLoop]
      simp only [wp_bind, wp_fetch, hone, if_true, wp_assert, true_and]
      refine Fbs.wp_fbFreeNode (h.held (a, 0) rfl) halive
        (fun hfull => ⟨.refl s [], fun hroom => ?_⟩) fun hroom => ?_
      · rw [Path.length] at hroom
        omega
      have hpush := pushFreeNode_eq halive hroom
      cases up with
      | top =>
        simp only [Path.positions, if_true, Fbs.fbChangeRoot, wp_bind, wp_fetch, wp_assert, wp_put,
          true_and]
        refine ⟨h.smo, (later_push a).trans (later_setRoot _ _), hnodup, hfree,
          fun s₁ hcommit => ?_⟩
        rw [setRoot_toFb] at hcommit
        rw [Path.positions, removeLoop]
        simpa [hone', hpush, Fb.changeRoot, Path.positions] using hcommit
      | step a' pre' k' post' up =>
        simp only [Path.positions, reduceCtorEq, if_false, wp_bind]
        refine Fbs.wp_wLock (fun hlocked => ?_) fun _ => ?_
        · have hlocked : 16 ≤ s.nodeLock.length := hlocked
          omega
        · refine (ih (by simp) h.next).mono (fun _ s' hd => ?_) fun s' hd => ⟨?_, fun hroom => ?_⟩
          · obtain ⟨hlater, hnodup', hlive', hsim⟩ := hd
            refine ⟨(later_push a).trans ((later_lock a').trans hlater), hnodup', hlive',
              fun s₁ hcommit => ?_⟩
            have hrest : removeLoop (total supply) true (s.push a).toFb
                (Path.step a' pre' k' post' up).positions = some s₁ := hsim s₁ hcommit
            rw [Path.positions] at hrest
            rw [Path.positions, Path.positions, removeLoop]
            simpa [hone', hpush] using hrest
          · exact (((Within.refl s []).push a).lock a').trans rfl rfl hd.1
          · refine hd.2 ?_
            show (s.freeNode ++ [a]).length + _ ≤ 8
            rw [List.length_append, List.length_singleton]
            rw [Path.length] at hroom
            omega
    · exact wp_removeStop hfresh h hone

/-- The loop begins at the leaf, which the call has locked. -/
theorem freeing_start {pre post : List (ℕ × Node ℕ ℕ 0)} {up : Path ℕ ℕ 1}
    (h : Sound t.toFb (plug (.step a pre k post up) (data p)))
    (hgo : smoLock = true ∨ 1 < t.level ∧ ¬ (t.mem a).remainOneKey) (hlevel : t.level ≤ 9) :
    Freeing ((Fbs.start t smoLock).lock a) (.step a pre k post up) p smoLock := by
  have hlen : t.level = 0 + (Path.step a pre k post up).length := h.shape.around.level
  refine ⟨h.shape.around, (allKeys_plug.mp h.keys).2, ?_, ?_, le_rfl, rfl, ?_, rfl, ?_⟩
  · have hcount := (shape_plug.mp h.shape).2.2
    rw [addrs_data, zero_add, zero_add] at hcount
    exact hcount
  · rintro pos ⟨⟩
    exact mem_lock _ a
  · show 0 + _ ≤ 9
    omega
  · refine hgo.imp id fun hgo => ⟨by omega, ?_⟩
    rintro pos ⟨⟩
    exact hgo.2

theorem removeTry_early (hlevel : t.level ≤ 1) :
    t.removeTry supply key false = some (some .smo, t) := by
  refine run_of_wp ?_
  have hearly : (Fbs.start t false).fbt.level ≤ 1 := hlevel
  simp only [Fbs.fbRemoveBody, wp_bind, wp_fetch, hearly, and_self, if_true, wp_pure, true_and]
  exact rollback_start t false []

theorem removeTry_empty (hlevel : t.level = 0) :
    t.removeTry supply key true = some (some .fail, t) := by
  refine run_of_wp ?_
  have hlevel' : (Fbs.start t true).fbt.level = 0 := hlevel
  simp only [Fbs.fbRemoveBody, wp_bind, wp_fetch, hlevel', reduceCtorEq, and_false, if_false,
    if_true, wp_pure, true_and]
  exact rollback_start t true []

theorem wp_removeAt {ps : List (ℕ × ℕ)} {i next : ℕ} {Q : FbResult × Bool → Fbs → Prop}
    {E : Fbs → Prop} (hlevel : t.level ≠ 0) (hgo : smoLock = true ∨ 1 < t.level)
    (hnil : a ≠ fbNilNode) (ht : fbTraverse t.toFb key = ((a, i) :: ps, next))
    (hcheck : fbSmoCheck t.toFb ((a, i) :: ps) next = false) :
    Wp (Fbs.fbRemoveBody supply key smoLock) (.start t smoLock) Q E ↔
      if (t.mem a).key i ≠ key then Q (.fail, false) (.start t smoLock)
      else if smoLock = false ∧ (t.mem a).remainOneKey then
        Wp Fbs.commit ((Fbs.start t smoLock).lock a) (fun _ s₁ => Q (.smo, true) s₁) E
      else Wp (Fbs.fbRemoveLoop supply smoLock ((a, i) :: ps))
        ((Fbs.start t smoLock).lock a) (fun _ s₁ => Wp (Fbs.finish (-1)) s₁ Q E) E := by
  have hlevel : (Fbs.start t smoLock).fbt.level ≠ 0 := hlevel
  have hearly : ¬ ((Fbs.start t smoLock).fbt.level ≤ 1 ∧ smoLock = false) := not_early hgo
  have hts : fbTraverse (Fbs.start t smoLock).toFb key = ((a, i) :: ps, next) := ht
  have hmem : (Fbs.start t smoLock).fbt.mem = t.mem := rfl
  have hcheck : fbSmoCheck (Fbs.start t smoLock).toFb ((a, i) :: ps) next = false := hcheck
  simp only [Fbs.fbRemoveBody, wp_bind, wp_fetch, hearly, if_false, hlevel, hts, hmem, hnil,
    false_or]
  by_cases hk : (t.mem a).key i = key
  · simp only [hk, ne_eq, not_true_eq_false, if_false, wp_bind, wp_firstLock, hcheck,
      Bool.false_eq_true, or_false]
    by_cases hone : smoLock = false ∧ (t.mem a).remainOneKey
    · rw [if_pos hone, if_pos hone]
      simp only [wp_bind, wp_pure]
    · rw [if_neg hone, if_neg hone]
      simp only [wp_bind]
  · simp only [hk, ne_eq, not_false_eq_true, if_true, wp_pure]

/-- A leaf with one key is left to the exclusive turn. -/
theorem removeTry_again {ps : List (ℕ × ℕ)} {i next : ℕ} (hlevel : 1 < t.level)
    (hnil : a ≠ fbNilNode) (ht : fbTraverse t.toFb key = ((a, i) :: ps, next))
    (hcheck : fbSmoCheck t.toFb ((a, i) :: ps) next = false) (hkey : (t.mem a).key i = key)
    (hone : (t.mem a).remainOneKey) : t.removeTry supply key false = some (some .smo, t) := by
  refine run_of_wp ((wp_removeAt (by omega) (.inr hlevel) hnil ht hcheck).mpr ?_)
  rw [if_neg (by simp [hkey]), if_pos ⟨rfl, hone⟩]
  refine Fbs.wp_commit List.nodup_nil (by simp [Fbs.lock, Fbs.start]) ⟨rfl, ?_⟩
  simp [Fbs.committed, Fbs.lock, Fbs.start]

section Leaf
variable {pre post : List (ℕ × Node ℕ ℕ 0)} {up : Path ℕ ℕ 1}
  (h : Sound t.toFb (plug (.step a pre k post up) (data p)))
  (ht : fbTraverse t.toFb key = ((a, pre.length) :: up.positions, p))
include h ht

theorem wp_fbRemoveBody {Q : FbResult × Bool → Fbs → Prop} {E : Fbs → Prop}
    (hgo : smoLock = true ∨ 1 < t.level) :
    Wp (Fbs.fbRemoveBody supply key smoLock) (.start t smoLock) Q E ↔
      if k ≠ key then Q (.fail, false) (.start t smoLock)
      else if smoLock = false ∧ (t.mem a).remainOneKey then
        Wp Fbs.commit ((Fbs.start t smoLock).lock a) (fun _ s₁ => Q (.smo, true) s₁) E
      else Wp (Fbs.fbRemoveLoop supply smoLock ((a, pre.length) :: up.positions))
        ((Fbs.start t smoLock).lock a) (fun _ s₁ => Wp (Fbs.finish (-1)) s₁ Q E) E := by
  have hcur : (t.mem a).key pre.length = k := key_at_cursor h
  have hnil : a ≠ fbNilNode := h.shape.ne_nil (by rw [addrs_plug]; simp [Path.addrs])
  rw [wp_removeAt (level_ne_zero h) hgo hnil ht (smoCheck_cursor h), hcur]

theorem removeTry_absent (hgo : smoLock = true ∨ 1 < t.level) (hkey : k ≠ key) :
    t.removeTry supply key smoLock = some (some .fail, t) := by
  refine run_of_wp ((wp_fbRemoveBody h ht hgo).mpr ?_)
  rw [if_pos hkey]
  exact ⟨rfl, rollback_start t smoLock []⟩

theorem removeTry_smo (hlevel : 1 < t.level) (hkey : k = key) (hone : (t.mem a).remainOneKey) :
    t.removeTry supply key false = some (some .smo, t) := by
  have hnil : a ≠ fbNilNode := h.shape.ne_nil (by rw [addrs_plug]; simp [Path.addrs])
  exact removeTry_again hlevel hnil ht (smoCheck_cursor h) ((key_at_cursor h).trans hkey) hone

/-- The entry of the key goes, or the call gives up. -/
theorem removeTry_present (hfresh : FreshSupply supply)
    (hgo : smoLock = true ∨ 1 < t.level ∧ ¬ (t.mem a).remainOneKey) (hkey : k = key)
    (hlevel : t.level ≤ 9) :
    Outcome (t.removeTry supply key smoLock) t (fbRemoveTry (total supply) t.toFb key smoLock)
      .success (-1) fun t' => Intact t t' ∧ (t.level ≤ 8 → ∃ live, supply live = none) := by
  have hgo' : smoLock = true ∨ 1 < t.level := hgo.imp id And.left
  have hlen : t.level = 0 + (Path.step a pre k post up).length := h.shape.around.level
  have hone : ¬ (smoLock = false ∧ (t.mem a).remainOneKey) := by
    rintro ⟨rfl, hone⟩
    rcases hgo with hgo | hgo
    · cases hgo
    · exact hgo.2 hone
  have hstart := freeing_start h hgo hlevel
  refine outcome_of_wp ((wp_fbRemoveBody h ht hgo').mpr ?_)
  rw [if_neg (by simp [hkey]), if_neg hone]
  refine (wp_fbRemoveLoop hfresh (.step a pre k post up) (by simp) hstart).mono
    (fun _ s' hd => ?_) fun s' hd => ⟨?_, fun hroom => hd.2 ?_⟩
  · obtain ⟨hlater, hnodup, hlive, hsim⟩ := hd
    refine wp_finish ((later_lock a).trans hlater) hnodup hlive fun s₁ hcommit => ?_
    have hrest : removeLoop (total supply) smoLock t.toFb ((a, pre.length) :: up.positions) =
        some s₁ := hsim s₁ hcommit
    have hearly : ¬ (t.toFb.level ≤ 1 ∧ smoLock = false) := not_early hgo'
    have hnil : a ≠ fbNilNode := h.shape.ne_nil (by rw [addrs_plug]; simp [Path.addrs])
    have hone' : ¬ (smoLock = false ∧ (t.toFb.mem a).remainOneKey) := hone
    simp [fbRemoveTry, hearly, level_ne_zero h, ht, key_at_cursor h, hkey, hnil,
      smoCheck_cursor h, hone', hrest]
  · exact intact_rollback ((later_lock a).trans hd.1.later) hd.1.kept hd.1.buf
  · show 0 + _ ≤ 8
    omega

end Leaf
end Remove

end YwStorage.FbTree

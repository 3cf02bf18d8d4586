import YwStorage.FbTree.Guarded
import YwStorage.Lib.Supply

/-!
What the parts of a call do to the state when anything may run out. A part that succeeds does what
the unguarded function does; `Later` is what holds whether it succeeds or not.
-/
namespace YwStorage.FbTree
open MultiTree Programs Prog Supply

/-- No node is registered twice or while it is in use. -/
def Clean (t : Fbt) : Prop := t.rcu.Nodup ∧ ∀ a ∈ t.rcu, a ∉ t.live

/-- A node that the tree has had is in use or registered. -/
def Known (t : Fbt) (a : ℕ) : Prop := a ∈ t.live ∨ a ∈ t.rcu

/-- A running call has gone on from `s` to `s'`. -/
structure Later (s s' : Fbs) : Prop where
  live : s.fbt.live ⊆ s'.fbt.live
  mems : ∃ new, s'.mems = s.mems ++ new ∧ ∀ b ∈ new, b ∉ s.fbt.live
  nodeLock : s.nodeLock ⊆ s'.nodeLock
  orgRoot : s'.orgRoot = s.orgRoot
  smoLock : s'.smoLock = s.smoLock
  card : (s'.fbt.live.card : ℤ) - s'.allocCount = s.fbt.live.card - s.allocCount
  clean : Clean s.fbt → Clean s'.fbt
  known : ∀ a, Known s.fbt a → Known s'.fbt a
  keyCount : s'.fbt.keyCount = s.fbt.keyCount
  nodeCount : s'.fbt.nodeCount = s.fbt.nodeCount
  delta : s'.keyCount = s.keyCount

/-- The contents of the nodes that were in use are the same. -/
def Kept (s s' : Fbs) : Prop := ∀ b ∈ s.fbt.live, s'.fbt.mem b = s.fbt.mem b

section Later
variable {s s₁ s₂ : Fbs} {a : ℕ}

theorem Later.refl (s : Fbs) : Later s s :=
  ⟨subset_rfl, ⟨[], by simp, by simp⟩, List.Subset.refl _, rfl, rfl, rfl, id, fun _ => id, rfl, rfl,
    rfl⟩

theorem Later.trans (h : Later s s₁) (h' : Later s₁ s₂) : Later s s₂ := by
  obtain ⟨new, hnew, hout⟩ := h.mems
  obtain ⟨new', hnew', hout'⟩ := h'.mems
  have hmems : s₂.mems = s.mems ++ (new ++ new') := by rw [hnew', hnew, List.append_assoc]
  refine ⟨fun b hb => h'.live (h.live hb), ⟨new ++ new', hmems, ?_⟩,
    fun b hb => h'.nodeLock (h.nodeLock hb), h'.orgRoot.trans h.orgRoot, h'.smoLock.trans h.smoLock,
    h'.card.trans h.card, fun hc => h'.clean (h.clean hc), fun a ha => h'.known a (h.known a ha),
    h'.keyCount.trans h.keyCount,
    h'.nodeCount.trans h.nodeCount, h'.delta.trans h.delta⟩
  rw [List.forall_mem_append]
  exact ⟨hout, fun b hb hlive => hout' b hb (h.live hlive)⟩

theorem Later.memory {new : ℕ} (h : Later s s₁) (hin : new ∈ s.mems) : new ∈ s₁.mems := by
  obtain ⟨fresh, hfresh, -⟩ := h.mems
  rw [hfresh]
  exact List.mem_append_left _ hin

theorem Kept.refl (s : Fbs) : Kept s s := fun _ _ => rfl

theorem Kept.trans (h : Kept s s₁) (hl : Later s s₁) (h' : Kept s₁ s₂) : Kept s s₂ :=
  fun b hb => (h' b (hl.live hb)).trans (h b hb)

theorem later_take (ha : a ∉ s.fbt.live) : Later s (s.take a) := by
  refine ⟨Finset.subset_insert _ _, ?_, List.Subset.refl _, rfl, rfl, ?_, ?_, fun b hb => ?_, rfl,
    rfl, rfl⟩
  · by_cases hroom : s.mems.length < guardSize
    · refine ⟨[a], if_pos hroom, ?_⟩
      rw [List.forall_mem_singleton]
      exact ha
    · exact ⟨[], (if_neg hroom).trans (List.append_nil _).symm, by simp⟩
  · simp only [Fbs.take, Finset.card_insert_of_notMem ha]
    push_cast
    omega
  · rintro ⟨hnodup, hout⟩
    refine ⟨hnodup.erase a, fun b hb hlive => ?_⟩
    obtain ⟨hne, hin⟩ := hnodup.mem_erase_iff.mp hb
    rcases Finset.mem_insert.mp hlive with heq | hlive
    · exact hne heq
    · exact hout b hin hlive
  · rcases hb with hb | hb
    · exact .inl (Finset.mem_insert_of_mem hb)
    · by_cases hba : b = a
      · exact .inl (hba ▸ Finset.mem_insert_self _ _)
      · exact .inr ((List.mem_erase_of_ne hba).mpr hb)

theorem later_setNode (a : ℕ) (nd : FbNode) : Later s (s.setNode a nd) :=
  ⟨subset_rfl, ⟨[], by simp [Fbs.setNode], by simp⟩, List.Subset.refl _, rfl, rfl, rfl, id,
    fun _ => id, rfl, rfl, rfl⟩

theorem later_lock (a : ℕ) : Later s (s.lock a) := by
  refine ⟨subset_rfl, ⟨[], by simp [Fbs.lock], by simp⟩, ?_, rfl, rfl, rfl, id, fun _ => id,
    rfl, rfl, rfl⟩
  by_cases hin : a ∈ s.nodeLock
  · simp [Fbs.lock, hin]
  · simp [Fbs.lock, hin]

theorem later_push (a : ℕ) : Later s (s.push a) :=
  ⟨subset_rfl, ⟨[], by simp [Fbs.push], by simp⟩, List.Subset.refl _, rfl, rfl, rfl, id,
    fun _ => id, rfl, rfl, rfl⟩

theorem later_setRoot (level root : ℕ) : Later s (s.setRoot level root) :=
  ⟨subset_rfl, ⟨[], by simp [Fbs.setRoot], by simp⟩, List.Subset.refl _, rfl, rfl, rfl, id,
    fun _ => id, rfl, rfl, rfl⟩

theorem mem_lock (s : Fbs) (a : ℕ) : a ∈ (s.lock a).nodeLock := by
  by_cases hin : a ∈ s.nodeLock
  · simp [Fbs.lock, hin]
  · simp [Fbs.lock, hin]

theorem length_lock (s : Fbs) (a : ℕ) :
    (s.lock a).nodeLock.length = s.nodeLock.length + if a ∈ s.nodeLock then 0 else 1 := by
  by_cases hin : a ∈ s.nodeLock
  · simp [Fbs.lock, hin]
  · simp [Fbs.lock, hin]

theorem setRoot_toFb (s : Fbs) (level root : ℕ) :
    (s.setRoot level root).toFb = { s.toFb with root := root, level := level } := by
  simp [Fbs.toFb, Fbs.setRoot, Fbt.root, Fbt.level]

end Later

namespace Fbs
variable {supply : Finset ℕ → Option ℕ} {s : Fbs} {a b c i k : ℕ} {E : Fbs → Prop}

theorem wp_wLock {Q : Unit → Fbs → Prop} (hE : 16 ≤ s.nodeLock.length → E s)
    (hQ : s.nodeLock.length < 16 → Q () (s.lock a)) : Wp (wLock a) s Q E := by
  simp only [wLock, wp_bind, wp_fetch]
  split_ifs with hfull
  · exact hE hfull
  · exact hQ (not_le.mp hfull)

theorem wp_fbFreeNode {Q : Unit → Fbs → Prop} (hlock : a ∈ s.nodeLock) (hlive : a ∈ s.fbt.live)
    (hE : 8 ≤ s.freeNode.length → E s) (hQ : s.freeNode.length < 8 → Q () (s.push a)) :
    Wp (fbFreeNode a) s Q E := by
  simp only [fbFreeNode, wp_bind, wp_fetch, wp_assert]
  refine ⟨hlock, hlive, ?_⟩
  split_ifs with hfull
  · exact hE hfull
  · exact hQ (not_le.mp hfull)

theorem wp_fbCreateNode {Q : ℕ → Fbs → Prop}
    (hE : (s.mems.length < 16 → supply s.fbt.live = none) → E s)
    (hQ : ∀ ret, supply s.fbt.live = some ret → Q ret (s.take ret)) :
    Wp (fbCreateNode supply) s Q E := by
  simp only [fbCreateNode, wp_bind, wp_fetch]
  cases hs : supply s.fbt.live with
  | none => exact hE fun _ => hs
  | some ret =>
    dsimp only
    split_ifs with hroom
    · exact hQ ret hs
    · exact hE fun hlt => absurd (Or.inr hlt) hroom

theorem wp_commit {Q : Unit → Fbs → Prop} (hnodup : s.freeNode.Nodup)
    (hlive : ∀ a ∈ s.freeNode, a ∈ s.fbt.live) (hQ : Q () s.committed) : Wp commit s Q E := by
  simp only [commit, wp_bind, wp_fetch, wp_assert]
  exact ⟨⟨hnodup, hlive⟩, hQ⟩

/-- The clone is a new node with one more slot. -/
theorem wp_fbCloningAndInsert {Q : ℕ → Fbs → Prop} (ha : a ≠ fbNilNode) (hi : i + 1 < 128)
    (hE : (s.mems.length < 16 → supply s.fbt.live = none) → E s)
    (hQ : ∀ ret, supply s.fbt.live = some ret → Q ret ((s.take ret).setNode ret
      (insertSlot (s.fbt.mem a) (s.fbt.mem ret) (i + 1) k c))) :
    Wp (fbCloningAndInsert supply a i k c) s Q E := by
  simp only [fbCloningAndInsert, wp_bind]
  refine wp_fbCreateNode hE fun ret hs => ?_
  simp only [wp_assert, wp_fetch, wp_put, wp_pure]
  exact ⟨ha, hi, hQ ret hs⟩

/-- The clone is a new node with one slot less. -/
theorem wp_fbCloningAndRemove {Q : ℕ → Fbs → Prop} (ha : a ≠ fbNilNode) (hi : i < 128)
    (hE : (s.mems.length < 16 → supply s.fbt.live = none) → E s)
    (hQ : ∀ ret, supply s.fbt.live = some ret → Q ret ((s.take ret).setNode ret
      (removeSlot (s.fbt.mem a) (s.fbt.mem ret) i))) :
    Wp (fbCloningAndRemove supply a i) s Q E := by
  simp only [fbCloningAndRemove, wp_bind]
  refine wp_fbCreateNode hE fun ret hs => ?_
  simp only [wp_assert, wp_fetch, wp_put, wp_pure]
  exact ⟨ha, hi, hQ ret hs⟩

end Fbs

/-- Of the nodes that were in use, at most the first of the stack has changed, and at most the other
root buffer. -/
structure Within (s s' : Fbs) (up : List (ℕ × ℕ)) : Prop where
  later : Later s s'
  mem : ∀ b ∈ s.fbt.live, (∀ pos ∈ up.head?, b ≠ pos.1) → s'.fbt.mem b = s.fbt.mem b
  buf : s'.fbt.rootBuf s.fbt.rootPtr = s.fbt.rootBuf s.fbt.rootPtr
  root : up ≠ [] → s'.fbt.rootBuf = s.fbt.rootBuf ∧ s'.fbt.rootPtr = s.fbt.rootPtr

section Replace
variable {s s' : Fbs} {o n q j : ℕ} {E : Fbs → Prop} {Q : Unit → Fbs → Prop} {up : List (ℕ × ℕ)}

theorem Within.refl (s : Fbs) (up : List (ℕ × ℕ)) : Within s s up :=
  ⟨.refl s, fun _ _ _ => rfl, rfl, fun _ => ⟨rfl, rfl⟩⟩

theorem Within.push (h : Within s s' up) (a : ℕ) : Within s (s'.push a) up :=
  ⟨h.later.trans (later_push a), h.mem, h.buf, h.root⟩

/-- Changes to a node that has come into use on the way do not count. -/
theorem Within.trans_new {s₁ s₂ : Fbs} {ups : List (ℕ × ℕ)} (h : Within s s₁ up)
    (h' : Within s₁ s₂ ((q, j) :: ups)) (hq : q ∉ s.fbt.live) : Within s s₂ up := by
  obtain ⟨hbuf, hptr⟩ := h'.root (by simp)
  refine ⟨h.later.trans h'.later, fun b hb hhead => ?_, ?_, fun hne => ?_⟩
  · have hbq : b ≠ q := fun he => hq (he ▸ hb)
    rw [h'.mem b (h.later.live hb) (by simpa using hbq), h.mem b hb hhead]
  · rw [hbuf, h.buf]
  · rw [hbuf, hptr]
    exact h.root hne

theorem Within.trans {s₁ s₂ : Fbs} (h : Within s s₁ up) (hbuf : s₁.fbt.rootBuf = s.fbt.rootBuf)
    (hptr : s₁.fbt.rootPtr = s.fbt.rootPtr) (h' : Within s₁ s₂ up) : Within s s₂ up := by
  refine ⟨h.later.trans h'.later, fun b hb hhead => ?_, ?_, fun hne => ?_⟩
  · rw [h'.mem b (h.later.live hb) hhead, h.mem b hb hhead]
  · rw [← hptr, h'.buf, hbuf]
  · obtain ⟨hbuf', hptr'⟩ := h'.root hne
    exact ⟨hbuf'.trans hbuf, hptr'.trans hptr⟩

theorem Within.kept (h : Within s s' []) : Kept s s' := fun b hb => h.mem b hb (by simp)

/-- The word that is replaced on a stack is the one above it. -/
def Points (s : Fb) : List (ℕ × ℕ) → ℕ → Prop
  | [], o => s.root = o
  | (q, j) :: _, o => (s.mem q).child j = o

theorem Around.points {m : ℕ} {path : Path ℕ ℕ m} {s : Fb} (h : Around s path o) :
    Points s path.positions o := by
  cases path with
  | top => exact h.root
  | step q pre k post up => exact h.child_eq

/-- How many locks a stack position still needs. -/
def missing (s : Fbs) (up : List (ℕ × ℕ)) : ℕ :=
  if ∀ pos ∈ up.head?, pos.1 ∈ s.nodeLock then 0 else 1

theorem missing_le (s : Fbs) (up : List (ℕ × ℕ)) : missing s up ≤ 1 := by
  unfold missing
  split_ifs <;> omega

theorem missing_mono (h : s.nodeLock ⊆ s'.nodeLock) : missing s' up ≤ missing s up := by
  by_cases hall : ∀ pos ∈ up.head?, pos.1 ∈ s.nodeLock
  · have hall' : ∀ pos ∈ up.head?, pos.1 ∈ s'.nodeLock := fun pos hpos => h (hall pos hpos)
    rw [missing, if_pos hall']
    exact Nat.zero_le _
  · rw [missing, missing, if_neg hall]
    split_ifs <;> omega

/-- After `fb_replace_child`. -/
structure Replaced (s s' : Fbs) (up : List (ℕ × ℕ)) (o n : ℕ) : Prop where
  within : Within s s' up
  sim : s.toFb.replaceChild up o n = some s'.toFb
  live : s'.fbt.live = s.fbt.live
  mems : s'.mems = s.mems
  few : s.freeNode.length < 8
  free : s'.freeNode = s.freeNode ++ [o]
  head : ∀ pos ∈ up.head?, s'.fbt.mem pos.1 = (s.fbt.mem pos.1).setChild pos.2 n
  held : ∀ pos ∈ up.head?, pos.1 ∈ s'.nodeLock
  locks : s'.nodeLock.length = s.nodeLock.length + missing s up

/-- The word of a node that is now locked. -/
theorem within_node (s : Fbs) (q j n : ℕ) (up : List (ℕ × ℕ)) :
    Within s ((s.lock q).setNode q ((s.fbt.mem q).setChild j n)) ((q, j) :: up) := by
  refine ⟨(later_lock q).trans (later_setNode _ _), fun b _ hb => ?_, rfl, fun _ => ⟨rfl, rfl⟩⟩
  have hne : b ≠ q := hb (q, j) rfl
  simp [Fbs.setNode, Fbs.lock, hne]

theorem within_root (s : Fbs) (level root : ℕ) : Within s (s.setRoot level root) [] :=
  ⟨later_setRoot _ _, fun _ _ _ => rfl, by simp [Fbs.setRoot], fun h => absurd rfl h⟩

/-- `fb_replace_child` on a stack that fits the memory. -/
theorem wp_fbReplaceChild (h : Points s.toFb up o) (hn : n ≠ fbNilNode)
    (hsmo : up = [] → s.smoLock = true) (hheld : o ∈ s.nodeLock) (hlive : o ∈ s.fbt.live)
    (hE : ∀ s', Within s s' up → 16 ≤ s.nodeLock.length ∨ 8 ≤ s.freeNode.length → E s')
    (hQ : ∀ s', Replaced s s' up o n → Q () s') :
    Wp (Fbs.fbReplaceChild up o n) s Q E := by
  match up, h with
  | [], hroot =>
    have hroot : s.fbt.root = o := hroot
    simp only [Fbs.fbReplaceChild, Fbs.fbChangeRoot, wp_bind, wp_assert, wp_fetch, wp_put]
    refine ⟨hn, hroot, hsmo rfl, Fbs.wp_fbFreeNode hheld hlive (fun hfull => ?_) fun hroom => ?_⟩
    · exact hE _ (within_root s _ _) (.inr hfull)
    · have hfree : s.freeNode.length < 8 := hroom
      have hpush : ((s.setRoot s.fbt.level n).push o).toFb =
          { s.toFb with root := n, freeNode := s.freeNode ++ [o] } := by
        simp [Fbs.push, Fbs.setRoot, Fbt.root, Fbt.level, Fbs.toFb]
      refine hQ _ ⟨(within_root s _ _).push o, ?_, rfl, rfl, hfree, rfl, by simp, by simp, ?_⟩
      · rw [hpush]
        simp [Fb.replaceChild, Fb.changeRoot, Fb.pushFreeNode, hn, Fbs.toFb, hroot, hlive, hfree]
      · simp [missing, Fbs.push, Fbs.setRoot]
  | (q, j) :: up, hchild =>
    have hchild : (s.fbt.mem q).child j = o := hchild
    simp only [Fbs.fbReplaceChild, wp_bind]
    refine Fbs.wp_wLock (fun hfull => hE s (.refl s _) (.inl hfull)) fun hroom => ?_
    simp only [wp_fetch, wp_assert, wp_put]
    have hin := within_node s q j n up
    refine ⟨hchild, Fbs.wp_fbFreeNode ((later_lock q).nodeLock hheld) hlive (fun hfull => ?_)
      fun hfree => ?_⟩
    · exact hE _ hin (.inr hfull)
    · have hfree : s.freeNode.length < 8 := hfree
      refine hQ _ ⟨hin.push o, ?_, rfl, rfl, hfree, rfl, ?_, ?_, ?_⟩
      · simp only [Fb.replaceChild, Fb.pushFreeNode, Fb.write, Fbs.toFb, hchild, hlive, hfree,
          guard_bind]
        rfl
      · rintro pos ⟨⟩
        simp [Fbs.push, Fbs.setNode, Fbs.lock]
      · rintro pos ⟨⟩
        exact mem_lock s q
      · simp only [missing, List.head?_cons, Option.mem_some_iff, forall_eq']
        exact length_lock s q

end Replace

section Parts
variable {supply : Finset ℕ → Option ℕ} {s s' : Fbs} {R : Multiset ℕ} {n a p l r kp kr np : ℕ}

/-- After a new node has been filled. -/
structure Cloned (supply : Finset ℕ → Option ℕ) (s s' : Fbs) (np : ℕ) (nd : FbNode) : Prop where
  within : ∀ up, Within s s' up
  new : supply s.fbt.live = some np
  live : s'.fbt.live = insert np s.fbt.live
  mem : s'.fbt.mem np = nd
  nodeLock : s'.nodeLock = s.nodeLock
  freeNode : s'.freeNode = s.freeNode
  mems : s'.mems = (s.take np).mems

theorem cloned (hfresh : FreshSupply supply) (hs : supply s.fbt.live = some np) (nd : FbNode) :
    Cloned supply s ((s.take np).setNode np nd) np nd := by
  have hnp := hfresh _ _ hs
  refine ⟨fun up => ⟨(later_take hnp).trans (later_setNode _ _), fun b hb _ => ?_, rfl,
    fun _ => ⟨rfl, rfl⟩⟩, hs, rfl, by simp [Fbs.setNode], rfl, rfl, rfl⟩
  have hne : b ≠ np := fun he => hnp (he ▸ hb)
  simp [Fbs.setNode, Fbs.take, hne]

theorem Cloned.kept {nd : FbNode} (h : Cloned supply s s' np nd) : Kept s s' := (h.within []).kept

/-- A clone takes the place of a node. It is the last change of a call; only at the root the list of
nodes to free may be full. -/
theorem wp_replaceClone {m b : ℕ} {up : Path ℕ ℕ m} (hfresh : FreshSupply supply)
    (h : Around s.toFb up a) (hup : ∀ x ∈ up.addrs, x ∈ s.fbt.live)
    (hnil : fbNilNode ∈ s.fbt.live) (ha : a ∈ s.fbt.live) (hheld : a ∈ s.nodeLock)
    (hsmo : up.positions = [] → s.smoLock = true) (hlocks : s.nodeLock.length < 16)
    (hfree : up.positions ≠ [] → s.freeNode.length < 8) (hs : supply s.fbt.live = some b)
    (nd : FbNode) :
    Wp (Fbs.fbReplaceChild up.positions a b) ((s.take b).setNode b nd)
      (fun _ s' => Later s s' ∧ s'.freeNode = s.freeNode ++ [a] ∧
        (({ s.toFb with live := insert b s.toFb.live } : Fb).write b nd).replaceChild up.positions
          a b = some s'.toFb)
      (fun s' => Within s s' [] ∧ 8 ≤ s.freeNode.length) := by
  have hb := hfresh _ _ hs
  have hbnil : b ≠ fbNilNode := fun he => hb (he ▸ hnil)
  have hc := cloned hfresh hs nd
  have haround : Around ((s.take b).setNode b nd).toFb up a :=
    h.congr rfl rfl fun x hx => hc.kept x (hup x hx)
  have hlater := (hc.within []).later
  refine wp_fbReplaceChild haround.points hbnil hsmo (hlater.nodeLock hheld) (hlater.live ha)
    (fun s' hin hfull => ?_) fun s' hrep => ⟨hlater.trans hrep.within.later, hrep.free, hrep.sim⟩
  rw [hc.nodeLock, hc.freeNode] at hfull
  have hfull : 8 ≤ s.freeNode.length := by omega
  have htop : up.positions = [] := by
    by_contra hne
    exact absurd (hfree hne) (not_lt.mpr hfull)
  rw [htop] at hin
  exact ⟨(hc.within []).trans rfl rfl hin, hfull⟩

/-- After both halves of `a` have been hung into a clone `np` of the parent `p`. -/
structure Hung (supply : Finset ℕ → Option ℕ) (s s' : Fbs) (a l r kr p i : ℕ)
    (up : List (ℕ × ℕ)) (np : ℕ) : Prop where
  within : Within s s' up
  sim : ∃ s₆ s₇, s.toFb.cloningAndInsert (total supply) p i kr r = some (np, s₆) ∧
    s₆.replaceChild ((np, i) :: up) a l = some s₇ ∧ s₇.replaceChild up p np = some s'.toFb
  new : supply s.fbt.live = some np
  live : s'.fbt.live = insert np s.fbt.live
  few : s.freeNode.length ≤ 6
  free : s'.freeNode = s.freeNode ++ [a, p]
  mems : s'.mems = (s.take np).mems
  head : ∀ pos ∈ up.head?, s'.fbt.mem pos.1 = (s.fbt.mem pos.1).setChild pos.2 np
  held : np ∈ s'.nodeLock
  locks : s'.nodeLock.length ≤ s.nodeLock.length + 1 + missing s up

theorem position_mem {m : ℕ} {path : Path ℕ ℕ m} {pos : ℕ × ℕ} (h : pos ∈ path.positions) :
    pos.1 ∈ path.addrs := by
  induction path with
  | top => simp [Path.positions] at h
  | step q pre k post up ih =>
    rw [Path.addrs]
    rcases List.mem_cons.mp h with rfl | h
    · simp
    · simp [ih h]

theorem wp_hangHalves {t : Node ℕ ℕ (n + 1)} {ppre ppost : List (ℕ × Node ℕ ℕ (n + 1))}
    {up : Path ℕ ℕ (n + 2)} (hfresh : FreshSupply supply)
    (h : Shape s.toFb R (plug (.step p ppre kp ppost up) t))
    (hroom : ppre.length + ppost.length + 1 < 128) (hl : l ≠ fbNilNode) (ha : ptr t ∈ s.nodeLock)
    (hp : p ∈ s.nodeLock) (hsmo : s.smoLock = true) :
    Wp (Fbs.hangHalves supply (ptr t) l r kr p ppre.length up.positions) s
      (fun np s' => Hung supply s s' (ptr t) l r kr p ppre.length up.positions np)
      (fun s' => Within s s' up.positions ∧
        (s.nodeLock.length ≤ 14 → s.freeNode.length ≤ 6 → s.mems.length < 16 →
          supply s.fbt.live = none ∧ Kept s s')) := by
  have haddr : ∀ x ∈ addrs t + Path.addrs (.step p ppre kp ppost up), x ∈ s.fbt.live :=
    fun x hx => h.mem_live (addrs_plug ▸ hx)
  have halive : ptr t ∈ s.fbt.live := haddr _ (by simp [ptr_mem_addrs])
  have hplive : p ∈ s.fbt.live := haddr _ (by simp [Path.addrs])
  have hpnil : p ≠ fbNilNode := h.ne_nil (by rw [addrs_plug]; simp [Path.addrs])
  have hchild : (s.fbt.mem p).child ppre.length = ptr t := h.around.child_eq
  simp only [Fbs.hangHalves, wp_bind, wp_fetch, wp_assert]
  refine ⟨hchild, Fbs.wp_fbCloningAndInsert hpnil (by omega) (fun hnone => ?_) fun np hs => ?_⟩
  · exact ⟨.refl s _, fun _ _ hmems => ⟨hnone hmems, .refl s⟩⟩
  have hnp := hfresh _ _ hs
  have hnpnil : np ≠ fbNilNode := fun he =>
    hnp (he ▸ Multiset.mem_of_le h.count (Multiset.mem_cons_self _ _))
  have hclone : s.toFb.cloningAndInsert (total supply) p ppre.length kr r =
      some (np, ((s.take np).setNode np
        (insertSlot (s.fbt.mem p) (s.fbt.mem np) (ppre.length + 1) kr r)).toFb) := by
    have hnew : total supply s.toFb.live = np := total_eq hs
    rw [cloningAndInsert_eq hpnil (by omega), hnew]
    rfl
  have hc := cloned hfresh hs (insertSlot (s.fbt.mem p) (s.fbt.mem np) (ppre.length + 1) kr r)
  generalize (s.take np).setNode np
    (insertSlot (s.fbt.mem p) (s.fbt.mem np) (ppre.length + 1) kr r) = s₆ at hclone hc
  have hword₆ : (s₆.fbt.mem np).child ppre.length = ptr t := by
    rw [hc.mem, (insertSlot_key _ _ kr r (by omega) (by omega)).2, if_pos (by omega), hchild]
  have hup : ∀ x ∈ up.addrs, x ∈ s.fbt.live := fun x hx => haddr x (by simp [Path.addrs, hx])
  have hlater₆ := (hc.within []).later
  refine wp_fbReplaceChild hword₆ hl (by simp) (hlater₆.nodeLock ha) (hlater₆.live halive)
    (fun s₇ hin₇ hfull => ⟨(hc.within _).trans_new hin₇ hnp, fun hlock hfree _ => ?_⟩)
    fun s₇ hrep₇ => ?_
  · rw [hc.nodeLock, hc.freeNode] at hfull
    omega
  have hin₇ : Within s s₇ up.positions := (hc.within _).trans_new hrep₇.within hnp
  obtain ⟨hbuf₇, hptr₇⟩ : s₇.fbt.rootBuf = s.fbt.rootBuf ∧ s₇.fbt.rootPtr = s.fbt.rootPtr :=
    ((hc.within [(np, 0)]).trans_new hrep₇.within hnp).root (by simp)
  have hkept₇ : Kept s s₇ := ((hc.within []).trans_new hrep₇.within hnp).kept
  have hlock₇ : s₇.nodeLock.length ≤ s.nodeLock.length + 1 := by
    have := missing_le s₆ ((np, ppre.length) :: up.positions)
    rw [hrep₇.locks, hc.nodeLock]
    omega
  have hfree₇ : s₇.freeNode = s.freeNode ++ [ptr t] := by rw [hrep₇.free, hc.freeNode]
  have hpoint : Points s₇.toFb up.positions p := by
    have hroot : s₇.toFb.root = s.toFb.root ∧ s₇.toFb.level = s.toFb.level := by
      simp only [Fbs.toFb, Fbt.root, Fbt.level, hbuf₇, hptr₇, and_self]
    exact (h.around.parent.congr hroot.1 hroot.2 fun x hx => hkept₇ x (hup x hx)).points
  refine wp_fbReplaceChild hpoint hnpnil (fun _ => hin₇.later.smoLock.trans hsmo)
    (hin₇.later.nodeLock hp) (hin₇.later.live hplive)
    (fun s₈ hin₈ hfull => ⟨hin₇.trans hbuf₇ hptr₇ hin₈, fun hlock hfree _ => ?_⟩) fun s₈ hrep₈ => ?_
  · rw [hfree₇, List.length_append, List.length_singleton] at hfull
    omega
  · refine ⟨hin₇.trans hbuf₇ hptr₇ hrep₈.within, ⟨_, _, hclone, hrep₇.sim, hrep₈.sim⟩, hs, ?_, ?_,
      ?_, ?_, fun pos hpos => ?_, hrep₈.within.later.nodeLock (hrep₇.held (np, _) rfl), ?_⟩
    · rw [hrep₈.live, hrep₇.live, hc.live]
    · have := hrep₈.few
      rw [hfree₇, List.length_append, List.length_singleton] at this
      omega
    · rw [hrep₈.free, hfree₇, List.append_assoc]
      rfl
    · rw [hrep₈.mems, hrep₇.mems, hc.mems]
    · rw [hrep₈.head pos hpos, hkept₇ _ (hup _ (position_mem (List.mem_of_head? hpos)))]
    · have hmissing : missing s₇ up.positions ≤ missing s up.positions :=
        missing_mono hin₇.later.nodeLock
      rw [hrep₈.locks]
      omega

/-- After both halves of a node have been filled. -/
structure Filled (supply : Finset ℕ → Option ℕ) (s s' : Fbs) (a sp l r : ℕ) : Prop where
  within : ∀ up, Within s s' up
  sim : s'.toFb = writeHalves (total supply) s.toFb a sp
  left : l = total supply s.toFb.live
  right : r = total supply (insert l s.toFb.live)
  new : l ∉ s.fbt.live
  grown : grown supply 2 s.fbt.live = some s'.fbt.live
  nodeLock : s'.nodeLock = s.nodeLock
  freeNode : s'.freeNode = s.freeNode
  mems : s'.mems.length ≤ s.mems.length + 2

theorem length_mems_take (s : Fbs) (a : ℕ) : (s.take a).mems.length ≤ s.mems.length + 1 := by
  rw [Fbs.take]
  split_ifs <;> simp

theorem wp_fillHalves (hfresh : FreshSupply supply) (a sp : ℕ) :
    Wp (Fbs.fillHalves supply a sp) s (fun lr s' => Filled supply s s' a sp lr.1 lr.2)
      (fun s' => (∀ up, Within s s' up) ∧
        (s.mems.length < 15 → grown supply 2 s.fbt.live = none)) := by
  simp only [Fbs.fillHalves, wp_bind]
  refine Fbs.wp_fbCreateNode (fun hnone => ⟨fun up => .refl s up, fun hlt => ?_⟩) fun l hl => ?_
  · simp [grown, hnone (by omega)]
  have hlnew := hfresh _ _ hl
  refine Fbs.wp_fbCreateNode (fun hnone => ⟨fun up => ?_, fun hlt => ?_⟩) fun r hr => ?_
  · exact ⟨later_take hlnew, fun _ _ _ => rfl, rfl, fun _ => ⟨rfl, rfl⟩⟩
  · have hlen := length_mems_take s l
    have hnone : supply (insert l s.fbt.live) = none := hnone (by omega)
    simp [grown, hl, hnone]
  have hrnew := hfresh _ _ hr
  have hrnot : r ∉ s.fbt.live := fun hin => hrnew (Finset.mem_insert_of_mem hin)
  have hr' : supply (insert l s.fbt.live) = some r := hr
  simp only [wp_fetch, wp_put, wp_pure]
  refine ⟨fun up => ⟨(later_take hlnew).trans ((later_take hrnew).trans
    ((later_setNode _ _).trans (later_setNode _ _))), fun b hb _ => ?_, rfl, fun _ => ⟨rfl, rfl⟩⟩,
    ?_, (total_eq hl).symm, (total_eq hr').symm, hlnew, ?_, rfl, rfl, ?_⟩
  · have hbl : b ≠ l := fun he => hlnew (he ▸ hb)
    have hbr : b ≠ r := fun he => hrnot (he ▸ hb)
    simp [Fbs.setNode, Fbs.take, hbl, hbr]
  · have hl' : total supply s.toFb.live = l := total_eq hl
    have hr'' : total supply (insert l s.toFb.live) = r := total_eq hr'
    simp only [writeHalves, Fb.write, hl', hr'']
    rfl
  · simp [grown, hl, hr', Fbs.setNode, Fbs.take]
  · have h₁ := length_mems_take s l
    have h₂ := length_mems_take (s.take l) r
    exact h₂.trans (by omega)

/-- After a new root has been put above the old one. -/
structure Rooted (supply : Finset ℕ → Option ℕ) (s s' : Fbs) (k₁ c₁ k₂ c₂ np : ℕ) : Prop where
  within : Within s s' []
  sim : s.toFb.makeNewRoot (total supply) k₁ c₁ k₂ c₂ = some (np, s'.toFb)
  new : supply s.fbt.live = some np
  live : s'.fbt.live = insert np s.fbt.live
  nodeLock : s'.nodeLock = s.nodeLock
  freeNode : s'.freeNode = s.freeNode
  mems : s'.mems.length ≤ s.mems.length + 1

theorem wp_fbMakeNewRoot (hfresh : FreshSupply supply) (hsmo : s.smoLock = true)
    (k₁ c₁ k₂ c₂ : ℕ) :
    Wp (Fbs.fbMakeNewRoot supply k₁ c₁ k₂ c₂) s (fun np s' => Rooted supply s s' k₁ c₁ k₂ c₂ np)
      (fun s' => Within s s' [] ∧ (s.mems.length < 16 → supply s.fbt.live = none)) := by
  simp only [Fbs.fbMakeNewRoot, wp_bind]
  refine Fbs.wp_fbCreateNode (fun hnone => ⟨.refl s [], hnone⟩) fun np hs => ?_
  simp only [Fbs.fbChangeRoot, wp_bind, wp_fetch, wp_put, wp_assert, wp_pure]
  have hc := cloned hfresh hs (rootSlots ((s.take np).fbt.mem np) k₁ c₁ k₂ c₂)
  refine ⟨rfl, hsmo, ⟨(hc.within []).trans rfl rfl (within_root _ _ _), ?_, hs, rfl, rfl, rfl,
    length_mems_take s np⟩⟩
  have hnew : total supply s.toFb.live = np := total_eq hs
  rw [setRoot_toFb]
  simp [Fb.makeNewRoot, Fb.createNode, Fb.changeRoot, Fb.write, hnew]
  exact ⟨rfl, rfl, rfl, rfl⟩

end Parts
end YwStorage.FbTree

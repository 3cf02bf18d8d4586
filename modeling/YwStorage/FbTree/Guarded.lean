import YwStorage.FbTree.WellFormed
import YwStorage.Lib.Prog

/-!
`ywfbtree.cc` with its counters and with everything that can run out: the nodes, the list of nodes
to free and the guards. There is one thread, so that a lock is granted if its guard has room for it.

`supply` is where nodes come from: it gets the nodes in use and returns another one, from the list
of the RCU or from the pool, or nothing. The nodes in use change with every allocation, so it may
fail at any of them. A node that could not be allocated is not constructed.
-/
namespace YwStorage.FbTree
open Programs Prog

/-- The size of `ywLockGuard` and `ywMemPoolGuard`. -/
abbrev guardSize : ℕ := 16

/-- `fbt_t` and the nodes: `live` are those in use, `rcu` those registered with the tree's RCU, and
all others are in the pool. The counts are the sums of the accumulators. -/
structure Fbt where
  mem : ℕ → FbNode
  rootBuf : Bool → ℕ × ℕ
  rootPtr : Bool
  live : Finset ℕ
  rcu : List ℕ
  keyCount : ℤ
  nodeCount : ℤ
  freeNodeCount : ℤ

/-- `fbs_t` of a running call: `nodeLock` and `mems` are what its guards hold. -/
structure Fbs where
  fbt : Fbt
  smoLock : Bool
  orgRoot : Bool
  keyCount : ℤ
  allocCount : ℕ
  reuseNodeCount : ℕ
  nodeLock : List ℕ
  freeNode : List ℕ
  mems : List ℕ

namespace Fbt
variable (t : Fbt)

def root : ℕ := (t.rootBuf t.rootPtr).1

def level : ℕ := (t.rootBuf t.rootPtr).2

/-- The tree alone. -/
def toFb : Fb := ⟨t.mem, t.root, t.level, t.live, []⟩

end Fbt

namespace Fbs
variable (s : Fbs)

def toFb : Fb := ⟨s.fbt.mem, s.fbt.root, s.fbt.level, s.fbt.live, s.freeNode⟩

def start (t : Fbt) (smoLock : Bool) : Fbs := ⟨t, smoLock, t.rootPtr, 0, 0, 0, [], [], []⟩

def setNode (a : ℕ) (nd : FbNode) : Fbs :=
  { s with fbt := { s.fbt with mem := Function.update s.fbt.mem a nd } }

/-- A node comes into use, and the guard keeps it if it has room. -/
def take (ret : ℕ) : Fbs :=
  { s with
    fbt := { s.fbt with live := insert ret s.fbt.live, rcu := s.fbt.rcu.erase ret }
    allocCount := s.allocCount + 1
    reuseNodeCount := if ret ∈ s.fbt.rcu then s.reuseNodeCount + 1 else s.reuseNodeCount
    mems := if s.mems.length < guardSize then s.mems ++ [ret] else s.mems }

def lock (node : ℕ) : Fbs :=
  { s with nodeLock := if node ∈ s.nodeLock then s.nodeLock else s.nodeLock ++ [node] }

def push (fbn : ℕ) : Fbs := { s with freeNode := s.freeNode ++ [fbn] }

def setRoot (level newRoot : ℕ) : Fbs :=
  { s with
    fbt := { s.fbt with
      rootBuf := Function.update s.fbt.rootBuf (!s.fbt.rootPtr) (newRoot, level)
      rootPtr := !s.fbt.rootPtr } }

/-- The nodes to free are registered with the RCU, and the counts are brought up to date. -/
def committed : Fbs :=
  { s with
    fbt := { s.fbt with
      live := s.fbt.live \ s.freeNode.toFinset
      rcu := s.freeNode ++ s.fbt.rcu
      keyCount := s.fbt.keyCount + s.keyCount
      nodeCount := s.fbt.nodeCount + (s.allocCount - s.freeNode.length)
      freeNodeCount := s.fbt.freeNodeCount + (s.freeNode.length - s.reuseNodeCount) }
    nodeLock := []
    freeNode := []
    mems := [] }

/-- The nodes of the guard go back to the pool, and the root pointer to where it was. -/
def rollback : Fbt :=
  { s.fbt with rootPtr := s.orgRoot, live := s.fbt.live \ s.mems.toFinset }

end Fbs

namespace Fbs
variable (supply : Finset ℕ → Option ℕ)

def wLock (node : ℕ) : Prog Fbs Unit := do
  let s ← fetch
  if guardSize ≤ s.nodeLock.length then giveUp else put (s.lock node)

/-- All nodes to free are in use until they are registered. -/
def commit : Prog Fbs Unit := do
  let s ← fetch
  assert (s.freeNode.Nodup ∧ ∀ a ∈ s.freeNode, a ∈ s.fbt.live)
  put s.committed

/-- Only a node of the pool needs room in the guard. -/
def fbCreateNode : Prog Fbs ℕ := do
  let s ← fetch
  match supply s.fbt.live with
  | none => giveUp
  | some ret =>
    if ret ∈ s.fbt.rcu ∨ s.mems.length < guardSize then do
      put (s.take ret)
      return ret
    else giveUp

def fbFreeNode (fbn : ℕ) : Prog Fbs Unit := do
  let s ← fetch
  assert (fbn ∈ s.nodeLock)
  assert (fbn ∈ s.fbt.live)
  if fbStackSize ≤ s.freeNode.length then giveUp
  else put (s.push fbn)

def fbChangeRoot (oldRoot level newRoot : ℕ) : Prog Fbs Unit := do
  let s ← fetch
  assert (s.fbt.root = oldRoot)
  assert (s.smoLock = true)
  put (s.setRoot level newRoot)

def fbReplaceChild (up : List (ℕ × ℕ)) (oldN newN : ℕ) : Prog Fbs Unit :=
  match up with
  | (parent, idx) :: _ => do
    wLock parent
    let s ← fetch
    assert ((s.fbt.mem parent).child idx = oldN)
    put (s.setNode parent ((s.fbt.mem parent).setChild idx newN))
    fbFreeNode oldN
  | [] => do
    assert (newN ≠ fbNilNode)
    let s ← fetch
    fbChangeRoot oldN s.fbt.level newN
    fbFreeNode oldN

def fbCloningAndInsert (oldFbn curIdx key child : ℕ) : Prog Fbs ℕ := do
  let newFbn ← fbCreateNode supply
  assert (oldFbn ≠ fbNilNode)
  assert (curIdx + 1 < fbSlotMax)
  let s ← fetch
  put (s.setNode newFbn
    (insertSlot (s.fbt.mem oldFbn) (s.fbt.mem newFbn) (curIdx + 1) key child))
  return newFbn

def fbCloningAndRemove (oldFbn idx : ℕ) : Prog Fbs ℕ := do
  let newFbn ← fbCreateNode supply
  assert (oldFbn ≠ fbNilNode)
  assert (idx < fbSlotMax)
  let s ← fetch
  put (s.setNode newFbn (removeSlot (s.fbt.mem oldFbn) (s.fbt.mem newFbn) idx))
  return newFbn

def fbMakeNewRoot (key₁ child₁ key₂ child₂ : ℕ) : Prog Fbs ℕ := do
  let fbn ← fbCreateNode supply
  let s ← fetch
  put (s.setNode fbn (rootSlots (s.fbt.mem fbn) key₁ child₁ key₂ child₂))
  fbChangeRoot s.fbt.root (s.fbt.level + 1) fbn
  return fbn

/-- The first part of `fb_split_node`: both halves of a node are allocated and filled. -/
def fillHalves (fbn splitIdx : ℕ) : Prog Fbs (ℕ × ℕ) := do
  let left ← fbCreateNode supply
  let right ← fbCreateNode supply
  let s ← fetch
  let nd := s.fbt.mem fbn
  put ((s.setNode left ((fbCopyNode nd 0 splitIdx (s.fbt.mem left) 0).resetNode splitIdx)).setNode
    right ((fbCopyNode nd splitIdx (fbSlotMax - splitIdx) (s.fbt.mem right) 0).resetNode
      (fbSlotMax - splitIdx)))
  return (left, right)

/-- The last part of `fb_split_node`: a clone of the parent gets both halves and takes the place of
the parent. -/
def hangHalves (fbn left right rightKey parent pidx : ℕ) (up : List (ℕ × ℕ)) : Prog Fbs ℕ := do
  let s ← fetch
  assert ((s.fbt.mem parent).child pidx = fbn)
  let newParent ← fbCloningAndInsert supply parent pidx rightKey right
  fbReplaceChild ((newParent, pidx) :: up) fbn left
  fbReplaceChild up parent newParent
  return newParent

/-- `fb_split_node` on the stack from the cursor to the root; the result is the new stack. -/
def fbSplitNode : List (ℕ × ℕ) → Prog Fbs (List (ℕ × ℕ))
  | [] => do
    assert False
    return []
  | (fbn, idx) :: up => do
    let s ← fetch
    assert (s.fbt.mem fbn).isFullNode
    let (left, right) ← fillHalves supply fbn (splitPoint idx).1
    let s₁ ← fetch
    let cursor := splitCursor left right idx
    assert ((s₁.fbt.mem cursor.1).key cursor.2 ≠ fbNilKey)
    let rightKey := (s₁.fbt.mem right).key 0
    match up with
    | [] => do
      let parent ← fbMakeNewRoot supply fbLeftMostKey left rightKey right
      return splitStack left right parent idx 0 []
    | (parent, pidx) :: up₁ => do
      wLock parent
      let up₂ ← (if (s₁.fbt.mem parent).isFullNode then do
          let st ← fbSplitNode ((parent, pidx) :: up₁)
          wLock (st.headD (fbNilNode, 0)).1
          return st
        else return (parent, pidx) :: up₁)
      match up₂ with
      | [] => do
        assert False
        return []
      | (parent₁, pidx₁) :: up₃ => do
        let newParent ← hangHalves supply fbn left right rightKey parent₁ pidx₁ up₃
        return splitStack left right newParent idx pidx₁ up₃

/-- The end of `_fb_insert` and of `_fb_remove`. -/
def finish (keyCount : ℤ) : Prog Fbs (FbResult × Bool) := do
  let s ← fetch
  put { s with keyCount := keyCount }
  commit
  return (.success, true)

/-- `_fb_insert` up to its return, and whether it has committed. -/
def fbInsertBody (key data : ℕ) (smoLock : Bool) : Prog Fbs (FbResult × Bool) := do
  let s ← fetch
  if s.fbt.level ≤ 1 ∧ smoLock = false then return (.smo, false)
  else if s.fbt.level = 0 then do
    let _ ← fbMakeNewRoot supply key data fbNilKey fbNilNode
    finish 1
  else
    match fbTraverse s.toFb key with
    | ([], _) => do
      assert False
      return (.fail, false)
    | ((fbn, idx) :: up, next) =>
      if (s.fbt.mem fbn).key idx = key then return (.dup, false)
      else do
        wLock fbn
        if smoLock = false ∧ FbTree.fbSmoCheck s.toFb ((fbn, idx) :: up) next then do
          commit
          return (.smo, true)
        else do
          assert (FbTree.fbSmoCheck s.toFb ((fbn, idx) :: up) next = false)
          if (s.fbt.mem fbn).isFullNode then
            if smoLock = false then return (.smo, false)
            else do
              let _ ← fbSplitNode supply ((fbn, idx) :: up)
              commit
              return (.retry, true)
          else do
            let newFbn ← fbCloningAndInsert supply fbn idx key data
            fbReplaceChild up fbn newFbn
            finish 1

/-- The end of `_fb_remove`: nodes that would be left without a key are freed. -/
def fbRemoveLoop (smoLock : Bool) : List (ℕ × ℕ) → Prog Fbs Unit
  | [] => assert False
  | (fbn, idx) :: up => do
    let s ← fetch
    if (s.fbt.mem fbn).remainOneKey then do
      assert (smoLock = true)
      fbFreeNode fbn
      if up = [] then do
        let s₁ ← fetch
        fbChangeRoot s₁.fbt.root 0 fbNilNode
      else do
        wLock (up.headD (fbNilNode, 0)).1
        fbRemoveLoop smoLock up
    else do
      let newFbn ← fbCloningAndRemove supply fbn idx
      fbReplaceChild up fbn newFbn

/-- `_fb_remove` up to its return, and whether it has committed. -/
def fbRemoveBody (key : ℕ) (smoLock : Bool) : Prog Fbs (FbResult × Bool) := do
  let s ← fetch
  if s.fbt.level ≤ 1 ∧ smoLock = false then return (.smo, false)
  else if s.fbt.level = 0 then return (.fail, false)
  else
    match fbTraverse s.toFb key with
    | ([], _) => do
      assert False
      return (.fail, false)
    | ((fbn, idx) :: up, next) =>
      if fbn = fbNilNode ∨ (s.fbt.mem fbn).key idx ≠ key then return (.fail, false)
      else do
        wLock fbn
        if smoLock = false ∧ ((s.fbt.mem fbn).remainOneKey ∨
            FbTree.fbSmoCheck s.toFb ((fbn, idx) :: up) next) then do
          commit
          return (.smo, true)
        else do
          fbRemoveLoop supply smoLock ((fbn, idx) :: up)
          finish (-1)

/-- `_fb_insert` and `_fb_remove` with the destructor of their stack, which rolls back what was not
committed; `none` as a result is `FB_RESULT_LOW_RESOURCE`. -/
def run (body : Prog Fbs (FbResult × Bool)) (t : Fbt) (smoLock : Bool) :
    Option (Option FbResult × Fbt) :=
  match body (start t smoLock) with
  | none => none
  | some (none, s) => some (none, s.rollback)
  | some (some (r, true), s) => some (some r, s.fbt)
  | some (some (r, false), s) => some (some r, s.rollback)

end Fbs

/-- `_fb_insert` -/
def Fbt.insertTry (supply : Finset ℕ → Option ℕ) (t : Fbt) (key data : ℕ) (smoLock : Bool) :
    Option (Option FbResult × Fbt) :=
  Fbs.run (Fbs.fbInsertBody supply key data smoLock) t smoLock

/-- `_fb_remove` -/
def Fbt.removeTry (supply : Finset ℕ → Option ℕ) (t : Fbt) (key : ℕ) (smoLock : Bool) :
    Option (Option FbResult × Fbt) :=
  Fbs.run (Fbs.fbRemoveBody supply key smoLock) t smoLock

/-- The loop of `fb_insert` and `fb_remove`. In an ordered tree it turns at most three times. -/
def Fbt.retryLoop (try' : Fbt → Bool → Option (Option FbResult × Fbt)) :
    ℕ → Fbt → Bool → Option (Bool × Fbt)
  | 0, _, _ => none
  | fuel + 1, t, smoLock =>
    match try' t smoLock with
    | none => none
    | some (none, t₁) => some (false, t₁)
    | some (some .success, t₁) => some (true, t₁)
    | some (some .fail, t₁) => some (false, t₁)
    | some (some .dup, t₁) => some (false, t₁)
    | some (some .smo, t₁) => if smoLock then none else retryLoop try' fuel t₁ true
    | some (some .retry, t₁) => retryLoop try' fuel t₁ smoLock

/-- `fb_insert` -/
def Fbt.insert (supply : Finset ℕ → Option ℕ) (t : Fbt) (key data : ℕ) : Option (Bool × Fbt) :=
  retryLoop (fun t smoLock => t.insertTry supply key data smoLock) 3 t false

/-- `fb_remove` -/
def Fbt.remove (supply : Finset ℕ → Option ℕ) (t : Fbt) (key : ℕ) : Option (Bool × Fbt) :=
  retryLoop (fun t smoLock => t.removeTry supply key smoLock) 3 t false

end YwStorage.FbTree

import YwStorage.Lib.MultiOrder

/-!
The fixed-size B-tree of `ywfbtree.cc`, run by one thread.

A function returns `none` where the source fails an assertion, or gives up because its list of
nodes to free is full. Locks are always granted. `alloc` is the node allocator of one call: it
gets the nodes in use and returns another one, whose contents are left over from earlier use.
-/
namespace YwStorage.FbTree

abbrev fbSlotMax : ℕ := 128
abbrev fbLastSlot : ℕ := 127
abbrev fb55Split : ℕ := 64
abbrev fbNilKey : ℕ := 4294967295
abbrev fbLeftMostKey : ℕ := 0
abbrev fbStackSize : ℕ := 8

/-- The address of `fb_nil_node`. -/
abbrev fbNilNode : ℕ := 0

inductive FbResult
  | success
  | fail
  | dup
  | retry
  | smo
  deriving DecidableEq

/-- The arrays of a node; a child of a leaf is a data pointer. -/
structure FbNode where
  key : ℕ → ℕ
  child : ℕ → ℕ

/-- Tree and running operation: `live` are the nodes with status `FB_NODE_INIT`, `freeNode` those
that the operation gives to the RCU when it commits. -/
structure Fb where
  mem : ℕ → FbNode
  root : ℕ
  level : ℕ
  live : Finset ℕ
  freeNode : List ℕ

namespace FbNode
variable (nd : FbNode)

def setChild (idx c : ℕ) : FbNode := { nd with child := Function.update nd.child idx c }

def setSlot (idx k c : ℕ) : FbNode :=
  ⟨Function.update nd.key idx k, Function.update nd.child idx c⟩

def resetSlot (idx : ℕ) : FbNode := { nd with key := Function.update nd.key idx fbNilKey }

/-- Resets the slots from `begin` on. -/
def resetNode (start : ℕ) : FbNode :=
  { nd with key := fun i => if start ≤ i ∧ i < fbSlotMax then fbNilKey else nd.key i }

def isFullNode : Prop := nd.key (fbSlotMax - 1) ≠ fbNilKey

def remainOneKey : Prop := nd.key 1 = fbNilKey

instance : Decidable nd.isFullNode := inferInstanceAs (Decidable (_ ≠ _))
instance : Decidable nd.remainOneKey := inferInstanceAs (Decidable (_ = _))

end FbNode

/-- `memcpy` of `cnt` slots, keys and children. -/
def fbCopyNode (src : FbNode) (start cnt : ℕ) (dst : FbNode) (target : ℕ) : FbNode :=
  ⟨fun i => if target ≤ i ∧ i < target + cnt then src.key (start + (i - target)) else dst.key i,
    fun i => if target ≤ i ∧ i < target + cnt then src.child (start + (i - target))
      else dst.child i⟩

/-- The loop of `fb_search_in_node`; `size` shrinks in every turn, so `fuel` bounds the turns. -/
def searchLoop (keyArray : ℕ → ℕ) (key : ℕ) : ℕ → ℕ → ℕ → ℕ
  | 0, _, idx => idx
  | fuel + 1, size, idx =>
    let size₁ := size / 2
    let mid := idx + size₁
    let idx₁ := if key ≥ keyArray mid then mid else idx
    if size₁ ≥ 1 then searchLoop keyArray key fuel size₁ idx₁ else idx₁

def fbSearchInNode (keyArray : ℕ → ℕ) (key : ℕ) : ℕ :=
  searchLoop keyArray key fbSlotMax fbSlotMax 0

namespace Fb
variable (alloc : Finset ℕ → ℕ) (s : Fb)

def write (a : ℕ) (nd : FbNode) : Fb := { s with mem := Function.update s.mem a nd }

def createNode : ℕ × Fb := (alloc s.live, { s with live := insert (alloc s.live) s.live })

/-- `fb_free_node`, with the assertion of `push_free_node`. -/
def pushFreeNode (a : ℕ) : Option Fb := do
  guard (a ∈ s.live)
  guard (s.freeNode.length < fbStackSize)
  return { s with freeNode := s.freeNode ++ [a] }

def commit : Option Fb := do
  guard s.freeNode.Nodup
  return { s with live := s.live \ s.freeNode.toFinset, freeNode := [] }

def changeRoot (oldRoot level newRoot : ℕ) : Option Fb := do
  guard (s.root = oldRoot)
  return { s with root := newRoot, level := level }

/-- `up` are the stack positions from the parent on, as node and slot; none above the root. -/
def replaceChild (up : List (ℕ × ℕ)) (oldN newN : ℕ) : Option Fb :=
  match up with
  | (parent, idx) :: _ => do
    guard ((s.mem parent).child idx = oldN)
    (s.write parent ((s.mem parent).setChild idx newN)).pushFreeNode oldN
  | [] => do
    guard (newN ≠ fbNilNode)
    let s₁ ← s.changeRoot oldN s.level newN
    s₁.pushFreeNode oldN

def cloningAndInsert (oldFbn curIdx key child : ℕ) : Option (ℕ × Fb) := do
  let idx := curIdx + 1
  let (newFbn, s₁) := s.createNode alloc
  guard (oldFbn ≠ fbNilNode)
  guard (idx < fbSlotMax)
  let nd₁ := fbCopyNode (s.mem oldFbn) 0 idx (s.mem newFbn) 0
  let nd₂ := if fbLastSlot > idx then
      fbCopyNode (s.mem oldFbn) idx (fbLastSlot - idx) nd₁ (idx + 1) else nd₁
  return (newFbn, s₁.write newFbn (nd₂.setSlot idx key child))

def cloningAndRemove (oldFbn idx : ℕ) : Option (ℕ × Fb) := do
  let (newFbn, s₁) := s.createNode alloc
  guard (oldFbn ≠ fbNilNode)
  guard (idx < fbSlotMax)
  let nd₁ := if 0 < idx then fbCopyNode (s.mem oldFbn) 0 idx (s.mem newFbn) 0 else s.mem newFbn
  let nd₂ := if fbLastSlot > idx then
      fbCopyNode (s.mem oldFbn) (idx + 1) (fbLastSlot - idx) nd₁ idx else nd₁
  return (newFbn, s₁.write newFbn (nd₂.resetSlot fbLastSlot))

def makeNewRoot (key₁ child₁ key₂ child₂ : ℕ) : Option (ℕ × Fb) := do
  let (fbn, s₁) := s.createNode alloc
  let nd := (((s.mem fbn).resetNode 2).setSlot 0 key₁ child₁).setSlot 1 key₂ child₂
  let s₂ ← (s₁.write fbn nd).changeRoot s.root (s.level + 1) fbn
  return (fbn, s₂)

end Fb

/-- Where a full node is cut, and whether the stack position at `idx` goes to the right half. -/
def splitPoint (idx : ℕ) : ℕ × Bool :=
  if idx = fbLastSlot then (fbLastSlot, true)
  else if idx = 0 then (1, false)
  else (fb55Split, decide (fb55Split ≤ idx))

/-- `fb_split_node` on the stack from the cursor to the root; the result is the new stack. -/
def fbSplitNode (alloc : Finset ℕ → ℕ) : Fb → List (ℕ × ℕ) → Option (Fb × List (ℕ × ℕ))
  | _, [] => none
  | s, (fbn, idx) :: up => do
    guard (s.mem fbn).isFullNode
    let (left, s₁) := s.createNode alloc
    let (right, s₂) := s₁.createNode alloc
    let (splitIdx, moveToRight) := splitPoint idx
    let remainCnt := fbSlotMax - splitIdx
    let s₃ := s₂.write left
      ((fbCopyNode (s.mem fbn) 0 splitIdx (s.mem left) 0).resetNode splitIdx)
    let s₄ := s₃.write right
      ((fbCopyNode (s.mem fbn) splitIdx remainCnt (s.mem right) 0).resetNode remainCnt)
    let cursor := if moveToRight then (right, idx - splitIdx) else (left, idx)
    guard ((s₄.mem cursor.1).key cursor.2 ≠ fbNilKey)
    let rightKey := (s₄.mem right).key 0
    match up with
    | [] => do
      let (parent, s₅) ← s₄.makeNewRoot alloc fbLeftMostKey left rightKey right
      return (s₅, [cursor, (parent, if moveToRight then 1 else 0)])
    | (parent, pidx) :: up₁ => do
      let (s₅, up₂) ← (if (s₄.mem parent).isFullNode then
          fbSplitNode alloc s₄ ((parent, pidx) :: up₁)
        else some (s₄, (parent, pidx) :: up₁))
      match up₂ with
      | [] => none
      | (parent₁, pidx₁) :: up₃ => do
        guard ((s₅.mem parent₁).child pidx₁ = fbn)
        let (newParent, s₆) ← s₅.cloningAndInsert alloc parent₁ pidx₁ rightKey right
        let s₇ ← s₆.replaceChild ((newParent, pidx₁) :: up₃) fbn left
        let s₈ ← s₇.replaceChild up₃ parent₁ newParent
        return (s₈, cursor :: (newParent, if moveToRight then pidx₁ + 1 else pidx₁) :: up₃)

/-- The loop of `fb_traverse`: the stack, cursor first, and the word below the cursor. -/
def traverseLoop (s : Fb) (key : ℕ) : ℕ → ℕ → List (ℕ × ℕ) → List (ℕ × ℕ) × ℕ
  | 0, node, ps => (ps, node)
  | i + 1, node, ps =>
    let idx := fbSearchInNode (s.mem node).key key
    traverseLoop s key i ((s.mem node).child idx) ((node, idx) :: ps)

def fbTraverse (s : Fb) (key : ℕ) : List (ℕ × ℕ) × ℕ := traverseLoop s key s.level s.root []

/-- Whether the tree has moved away from the stack. The child of the root is not compared. -/
def fbSmoCheck (s : Fb) : List (ℕ × ℕ) → ℕ → Bool
  | [], next => s.root ≠ next
  | (node, idx) :: up, next =>
    (up ≠ [] ∧ (s.mem node).child idx ≠ next) || fbSmoCheck s up node

/-- `_fb_insert`. -/
def fbInsertTry (alloc : Finset ℕ → ℕ) (s : Fb) (key data : ℕ) (smoLock : Bool) :
    Option (FbResult × Fb) := do
  if s.level ≤ 1 ∧ smoLock = false then
    return (.smo, s)
  if s.level = 0 then
    let (_, s₁) ← s.makeNewRoot alloc key data fbNilKey fbNilNode
    return (.success, ← s₁.commit)
  let (ps, next) := fbTraverse s key
  match ps with
  | [] => none
  | (fbn, idx) :: up => do
    if (s.mem fbn).key idx = key then
      return (.dup, s)
    if smoLock = false ∧ fbSmoCheck s ps next then
      return (.smo, ← s.commit)
    guard (fbSmoCheck s ps next = false)
    if (s.mem fbn).isFullNode then
      if smoLock = false then
        return (.smo, s)
      let (s₁, _) ← fbSplitNode alloc s ps
      return (.retry, ← s₁.commit)
    let (newFbn, s₁) ← s.cloningAndInsert alloc fbn idx key data
    let s₂ ← s₁.replaceChild up fbn newFbn
    return (.success, ← s₂.commit)

/-- The loop of `fb_insert` and `fb_remove`. -/
def retryLoop (try' : Fb → Bool → Option (FbResult × Fb)) :
    ℕ → Fb → Bool → Option (Bool × Fb)
  | 0, _, _ => none
  | fuel + 1, s, smoLock => do
    let (r, s₁) ← try' s smoLock
    match r with
    | .success => return (true, s₁)
    | .fail => return (false, s₁)
    | .dup => return (false, s₁)
    | .smo => do
      guard (smoLock = false)
      retryLoop try' fuel s₁ true
    | .retry => retryLoop try' fuel s₁ smoLock

/-- The loop turns once for the lock, once for a split and once for the call itself. -/
def fbInsert (alloc : Finset ℕ → ℕ) (s : Fb) (key data : ℕ) : Option (Bool × Fb) :=
  retryLoop (fun s smoLock => fbInsertTry alloc s key data smoLock) 3 s false

/-- The end of `_fb_remove`: nodes that would be left without a key are freed. -/
def removeLoop (alloc : Finset ℕ → ℕ) (smoLock : Bool) : Fb → List (ℕ × ℕ) → Option Fb
  | _, [] => none
  | s, (fbn, idx) :: up => do
    if (s.mem fbn).remainOneKey then
      guard (smoLock = true)
      let s₁ ← s.pushFreeNode fbn
      match up with
      | [] => do
        let s₂ ← s₁.changeRoot s₁.root 0 fbNilNode
        s₂.commit
      | _ :: _ => removeLoop alloc smoLock s₁ up
    else
      let (newFbn, s₁) ← s.cloningAndRemove alloc fbn idx
      let s₂ ← s₁.replaceChild up fbn newFbn
      s₂.commit

/-- `_fb_remove`. -/
def fbRemoveTry (alloc : Finset ℕ → ℕ) (s : Fb) (key : ℕ) (smoLock : Bool) :
    Option (FbResult × Fb) := do
  if s.level ≤ 1 ∧ smoLock = false then
    return (.smo, s)
  if s.level = 0 then
    return (.fail, s)
  let (ps, next) := fbTraverse s key
  match ps with
  | [] => none
  | (fbn, idx) :: _ => do
    if fbn = fbNilNode ∨ (s.mem fbn).key idx ≠ key then
      return (.fail, s)
    if smoLock = false ∧ ((s.mem fbn).remainOneKey ∨ fbSmoCheck s ps next) then
      return (.smo, ← s.commit)
    return (.success, ← removeLoop alloc smoLock s ps)

def fbRemove (alloc : Finset ℕ → ℕ) (s : Fb) (key : ℕ) : Option (Bool × Fb) :=
  retryLoop (fun s smoLock => fbRemoveTry alloc s key smoLock) 3 s false

def findLoop (s : Fb) (key : ℕ) : ℕ → ℕ → ℕ
  | 0, fbn => fbn
  | i + 1, fbn => findLoop s key i ((s.mem fbn).child (fbSearchInNode (s.mem fbn).key key))

/-- Returns the data of the largest key that is not above `key`, without comparing the two. -/
def fbFind (s : Fb) (key : ℕ) : ℕ := findLoop s key s.level s.root

/-- `fb_create`; the nil node is not one of the pool. -/
def fbCreate (mem : ℕ → FbNode) : Fb := ⟨mem, fbNilNode, 0, {fbNilNode}, []⟩

end YwStorage.FbTree

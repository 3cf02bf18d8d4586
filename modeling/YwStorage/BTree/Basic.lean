import YwStorage.OrderedNode.Spec
import YwStorage.Lib.Prog

/-!
The B-tree of `ywbtree.h`, used by one thread. Its pages are those of `yworderednode.h`, taken as
what `OrderedNode` shows them to be: lists of entries in a bounded space. A record is a key and a
pointer, which is a page above the leaves. All records have the same size.

A result `none` means a failed assertion, a record read from memory that was never written, or a
loop that has not ended within the fuel. Locks are granted, unless this thread holds them already.
-/
namespace YwStorage.BTree
open OrderedNode Programs Prog

/-- Template parameters, as far as they are sizes. -/
structure Config where
  page : OrderedNode.Config
  recordSize : ℕ

variable {α : Type} [LinearOrder α]

/-- `node_type` with its `ywBTreeHeader`. An empty page still has a record in its first slot, `old`,
unless there never was one. -/
structure Page (α : Type) where
  isLeaf : Bool
  smoSeq : ℕ
  body : AbsPage (α × ℕ)
  old : Option (α × ℕ)

namespace Page
variable (c : Config) (p : Page α)

abbrev entries : List (α × ℕ) := p.body.entries

/-- `binary_search`, where an index below 0 is taken as 0. -/
def floor (key : α) : ℕ := (below Prod.fst (key, 0) p.entries).length - 1

/-- `get(idx)`. -/
def get (idx : ℕ) : Option (α × ℕ) :=
  if p.entries = [] then if idx = 0 then p.old else none else p.entries[idx]?

def append (r : α × ℕ) : Bool × Page α :=
  let (ok, body) := p.body.append c.page (fun _ => c.recordSize) r
  (ok, { p with body })

def insert (r : α × ℕ) : Bool × Page α :=
  let (ok, body) := p.body.insert c.page (fun _ => c.recordSize) Prod.fst r
  (ok, { p with body })

def inplaceUpdate (r : α × ℕ) : Bool × Page α :=
  let (ok, body) := p.body.update (fun _ => c.recordSize) Prod.fst r
  (ok, { p with body })

def remove (key : α) : Bool × Page α :=
  let (ok, body) := p.body.removeKey Prod.fst (key, 0)
  (ok, { p with body, old := p.entries.head?.or p.old })

end Page

/-- `ywBTree`: `live` are the pages that the pool has given out, `rcu` those given to the RCU, and
`locked` those whose sequence is odd. Page 0 stands for `NULL`. -/
structure Tree (α : Type) where
  mem : ℕ → Page α
  root : ℕ
  smoSeq : ℕ
  live : Finset ℕ
  rcu : List ℕ
  locked : Finset ℕ

/-- A running call with its `ywRcuPoolGuard` and the locks of its `ywbtStack`. -/
structure Call (α : Type) where
  tree : Tree α
  allocStack : List ℕ
  freeStack : List ℕ
  lockStack : List ℕ

/-- The size of the stacks of `ywRcuPoolGuard`. -/
abbrev guardSize : ℕ := 32

/-- `MAX_DEPTH` -/
abbrev maxDepth : ℕ := 16

namespace Tree

/-- `init_node` of a page that is not in the tree. -/
def blankPage (smoSeq : ℕ) (isLeaf : Bool) : Page α := ⟨isLeaf, smoSeq, .empty, none⟩

def setPage (t : Tree α) (a : ℕ) (p : Page α) : Tree α :=
  { t with mem := Function.update t.mem a p }

/-- `clear` -/
def create (mem : ℕ → Page α) (root : ℕ) : Tree α where
  mem := Function.update mem root (blankPage 0 true)
  root := root
  smoSeq := 0
  live := {0, root}
  rcu := []
  locked := ∅

end Tree

namespace Call
variable (c : Config) (supply : Finset ℕ → Option ℕ)

def setPage (s : Call α) (a : ℕ) (p : Page α) : Call α := { s with tree := s.tree.setPage a p }

/-- A page comes into use, and the guard keeps it. -/
def take (s : Call α) (ptr : ℕ) : Call α :=
  { s with
    tree := { s.tree with live := insert ptr s.tree.live, rcu := s.tree.rcu.erase ptr }
    allocStack := ptr :: s.allocStack }

/-- `rpGuard->alloc()`. A page that the guard has no room for goes to the RCU. -/
def alloc : Prog (Call α) (Option ℕ) := do
  let s ← fetch
  match supply s.tree.live with
  | none => return none
  | some ptr => do
    assert (ptr ∉ s.allocStack ∧ ptr ∉ s.freeStack)
    if s.allocStack.length < guardSize then do
      put (s.take ptr)
      return some ptr
    else do
      put { s with tree := { s.tree with rcu := ptr :: s.tree.rcu.erase ptr } }
      return none

/-- `rpGuard->free(node)` in an assertion, after one that the page is in no list. -/
def free (node : ℕ) : Prog (Call α) Unit := do
  let s ← fetch
  assert (node ∉ s.tree.rcu)
  assert (node ∉ s.allocStack ∧ node ∉ s.freeStack ∧ s.freeStack.length < guardSize)
  put { s with freeStack := node :: s.freeStack }

/-- `init_node`, which also clears the lock of the page. -/
def blank (s : Call α) (node : ℕ) (isLeaf : Bool) : Call α :=
  { s with
    tree := { s.tree.setPage node (Tree.blankPage s.tree.smoSeq isLeaf) with
      locked := s.tree.locked.erase node } }

def initNode (node : ℕ) (isLeaf : Bool) : Prog (Call α) Unit := do
  let s ← fetch
  put (s.blank node isLeaf)

def pushLock (s : Call α) (node : ℕ) : Call α :=
  { s with
    tree := { s.tree with locked := insert node s.tree.locked }
    lockStack := node :: s.lockStack }

/-- `ywbtStack::lock`. It would wait forever for a page that this thread has locked. -/
def lock (node : ℕ) : Prog (Call α) Unit := do
  let s ← fetch
  if s.lockStack.length < maxDepth then do
    assert (node ∉ s.tree.locked)
    put (s.pushLock node)
  else giveUp

/-- The loop of `copy_node` over the records to copy. -/
def copyLoop (target : ℕ) : List (α × ℕ) → Prog (Call α) Unit
  | [] => pure ()
  | r :: rs => do
    let s ← fetch
    assert (target ∈ s.tree.locked)
    match (s.tree.mem target).append c r with
    | (true, p) => do
      put (s.setPage target p)
      copyLoop target rs
    | (false, _) => giveUp

/-- `node->copy_node(target, begin, end)` -/
def copyNode (node target first last : ℕ) : Prog (Call α) Unit := do
  let s ← fetch
  assert (node ∈ s.tree.locked)
  copyLoop c target (((s.tree.mem node).entries.take last).drop first)

/-- The loop of `get_left_most_key`. -/
def leftMostLoop (mem : ℕ → Page α) : ℕ → ℕ → Option (α × ℕ)
  | 0, _ => none
  | fuel + 1, node =>
    if (mem node).isLeaf then (mem node).get 0
    else ((mem node).get 0).bind fun e => leftMostLoop mem fuel e.2

def getLeftMostKey (fuel node : ℕ) : Prog (Call α) (α × ℕ) := do
  let s ← fetch
  match leftMostLoop s.tree.mem fuel node with
  | none => fun _ => none
  | some r => return r

/-- `insert(value, false)` on a page that is locked. -/
def insertLocked (node : ℕ) (r : α × ℕ) : Prog (Call α) Unit := do
  let s ← fetch
  assert (node ∈ s.tree.locked)
  match (s.tree.mem node).insert c r with
  | (true, p) => put (s.setPage node p)
  | (false, _) => giveUp

/-- `insert(value)` -/
def insertRecord (node : ℕ) (r : α × ℕ) : Prog (Call α) Bool := do
  let s ← fetch
  if node ∈ s.tree.locked then return false
  else
    match (s.tree.mem node).insert c r with
    | (true, p) => do
      put (s.setPage node p)
      return true
    | (false, _) => return false

/-- `if (!parent->inplace_update(value)) return false;` -/
def inplaceUpdate (node : ℕ) (r : α × ℕ) : Prog (Call α) Unit := do
  let s ← fetch
  if node ∈ s.tree.locked then giveUp
  else
    match (s.tree.mem node).inplaceUpdate c r with
    | (true, p) => put (s.setPage node p)
    | (false, _) => giveUp

/-- The records for the halves of a node in its parent. -/
structure Halves (α : Type) where
  left : α × ℕ
  right : α × ℕ

/-- The part of `split_insert` up to `left_parent_key`. -/
def splitNode (fuel node : ℕ) (keyValue : α × ℕ) : Prog (Call α) (Halves α) := do
  let newLeft ← alloc supply
  let right ← alloc supply
  match newLeft, right with
  | some newLeft, some right => do
    free node
    let s ← fetch
    let curCount := (s.tree.mem node).entries.length
    let splitIdx := curCount / 2
    initNode newLeft (s.tree.mem node).isLeaf
    initNode right (s.tree.mem node).isLeaf
    lock newLeft
    lock right
    copyNode c node newLeft 0 splitIdx
    copyNode c node right splitIdx curCount
    let rightKey ← getLeftMostKey fuel right
    if rightKey.1 < keyValue.1 then insertLocked c right keyValue
    else insertLocked c newLeft keyValue
    let leftKey ← getLeftMostKey fuel newLeft
    return ⟨(leftKey.1, newLeft), (rightKey.1, right)⟩
  | _, _ => giveUp

/-- The part of `split_insert` that makes a new root. -/
def makeRoot (h : Halves α) : Prog (Call α) Unit := do
  match ← alloc supply with
  | none => giveUp
  | some parent => do
    initNode parent false
    if ← insertRecord c parent h.right then
      if ← insertRecord c parent h.left then do
        let s ← fetch
        put { s with tree := { s.tree with root := parent } }
      else giveUp
    else giveUp

/-- `split_insert`, with the nodes above `node` on the stack. -/
def splitInsert (fuel : ℕ) : List ℕ → ℕ → α × ℕ → Prog (Call α) Unit
  | [], node, keyValue => do
    let h ← splitNode c supply fuel node keyValue
    makeRoot c supply h
  | parent :: stack, node, keyValue => do
    let h ← splitNode c supply fuel node keyValue
    inplaceUpdate c parent h.left
    if ← insertRecord c parent h.right then return
    else do
      lock parent
      splitInsert fuel stack parent h.right

/-- The loop of `traverse_with_stack`, with `i` turns left. -/
def traverseLoop (key : α) : ℕ → ℕ → List ℕ → Prog (Call α) (List ℕ)
  | 0, _, _ => giveUp
  | i + 1, cursor, stack => do
    let s ← fetch
    let p := s.tree.mem cursor
    if p.isLeaf then lock cursor else pure ()
    assert (p.floor key < p.entries.length)
    if stack.length < maxDepth then
      if p.isLeaf then return cursor :: stack
      else
        match p.get (p.floor key) with
        | none => fun _ => none
        | some e => do
          assert (e.2 ≠ 0)
          traverseLoop key i e.2 (cursor :: stack)
    else giveUp

/-- The part of `insert` under `smo_guard`. -/
def smoInsert (fuel : ℕ) (keyValue : α × ℕ) : Prog (Call α) Unit := do
  let s ← fetch
  match ← traverseLoop keyValue.1 maxDepth s.tree.root [] with
  | [] => giveUp
  | cursor :: stack => splitInsert c supply fuel stack cursor keyValue

/-- The guards at the end of a call: the locks are released, and the pages to free go to the RCU
after a success, the new ones otherwise. -/
def finish (s : Call α) (ok : Bool) : Tree α :=
  let dropped := if ok then s.freeStack else s.allocStack
  { s.tree with
    smoSeq := (s.tree.smoSeq + 1) % 2 ^ 32
    locked := s.tree.locked \ s.lockStack.toFinset
    live := s.tree.live \ dropped.toFinset
    rcu := dropped ++ s.tree.rcu }

end Call

namespace Tree
variable (c : Config) (supply : Finset ℕ → Option ℕ) (t : Tree α)

/-- The loop of `find_leaf`. -/
def findLoop (key : α) : ℕ → ℕ → Option ℕ
  | 0, _ => none
  | fuel + 1, cursor =>
    let p := t.mem cursor
    if p.isLeaf then some cursor
    else if cursor ∈ t.locked then none
    else
      match p.get (p.floor key) with
      | none => none
      | some e =>
        if p.smoSeq < t.smoSeq then if e.2 = 0 then none else findLoop key fuel e.2
        -- the tree has changed in between, and the search begins again
        else findLoop key fuel t.root

def findLeaf (fuel : ℕ) (key : α) : Option ℕ := t.findLoop key fuel t.root

/-- The part of `insert` that follows a failed insertion into a leaf. -/
def smoInsert (fuel : ℕ) (keyValue : α × ℕ) : Option (Bool × Tree α) :=
  if t.smoSeq % 2 = 1 then some (false, t)
  else
    match Call.smoInsert c supply fuel keyValue ⟨{ t with smoSeq := t.smoSeq + 1 }, [], [], []⟩ with
    | none => none
    | some (none, s) => some (false, s.finish false)
    | some (some _, s) => some (true, s.finish true)

def insert (fuel : ℕ) (key : α) (value : ℕ) : Option (Bool × Tree α) :=
  (t.findLeaf fuel key).bind fun cursor =>
    if cursor ∈ t.locked then t.smoInsert c supply fuel (key, value)
    else
      match (t.mem cursor).insert c (key, value) with
      | (true, p) => some (true, t.setPage cursor p)
      | (false, _) => t.smoInsert c supply fuel (key, value)

def remove (fuel : ℕ) (key : α) : Option (Bool × Tree α) :=
  (t.findLeaf fuel key).map fun cursor =>
    if cursor ∈ t.locked then (false, t)
    else
      match (t.mem cursor).remove key with
      | (true, p) => (true, t.setPage cursor p)
      | (false, _) => (false, t)

/-- `find`; a result `some none` is `NULL`. -/
def find (fuel : ℕ) (key : α) : Option (Option ℕ) :=
  (t.findLeaf fuel key).bind fun cursor =>
    let p := t.mem cursor
    if p.entries = [] then some none
    else if cursor ∈ t.locked then none
    else (p.get (p.floor key)).map fun r => some r.2

end Tree
end YwStorage.BTree

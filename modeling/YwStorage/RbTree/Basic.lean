import YwStorage.Lib.LinkedTree
import YwStorage.Lib.Run

/-!
The red-black tree of `ywrbtree.cc`, on the memory of its nodes.

Address `0` is the shared `nil_node`. A function returns `none` where the source fails an
assertion or never leaves a loop; a loop that is still running after it has passed every live
node once does not end.
-/
namespace YwStorage.RbTree
open LinkedTree

inductive Color
  | red
  | black
  deriving DecidableEq, Repr

/-- A `void *`; `NULL` is `0`. -/
abbrev Ptr := ℕ

structure NodeVal where
  color : Color
  key : ℤ
  data : Ptr

abbrev nilNode : ℕ := 0

/-- The node memory, `rbt->root`, and the addresses `rb_node_pool` has handed out. -/
structure Rb where
  mem : Mem NodeVal
  root : ℕ
  live : Finset ℕ

namespace Rb
variable (s : Rb) (n : ℕ)

def parent : ℕ := (s.mem n).parent
def child (d : Side) : ℕ := (s.mem n).child d
def getColor : Color := (s.mem n).val.color
def key : ℤ := (s.mem n).val.key
def data : Ptr := (s.mem n).val.data

/-- A store to one node. -/
def modify (f : Cell NodeVal → Cell NodeVal) : Rb :=
  { s with mem := Function.update s.mem n (f (s.mem n)) }

def setParent (p : ℕ) : Rb := s.modify n fun c => { c with parent := p }

def setChild (d : Side) (x : ℕ) : Rb :=
  s.modify n fun c => { c with child := Function.update c.child d x }

def setColor (x : Color) : Rb := s.modify n fun c => { c with val := { c.val with color := x } }

def setKey (k : ℤ) : Rb := s.modify n fun c => { c with val := { c.val with key := k } }

def grandParent : ℕ := s.parent (s.parent n)

def getSide : Side := if s.child (s.parent n) .right = n then .right else .left

def sibling : ℕ := s.child (s.parent n) (s.getSide n).other

def uncle : ℕ := s.sibling (s.parent n)

/-- Writes the parent link of `new` also when `new` is the shared `nil_node`. -/
def replaceChild (org new : ℕ) : Rb :=
  if s.root = org then
    (({ s with root := new }).setColor new .black).setParent new nilNode
  else
    let parent := s.parent org
    (s.setChild parent (s.getSide org) new).setParent new parent

def rotate (node : ℕ) (side : Side) : Rb :=
  let child := s.child node side.other
  let grandson := s.child child side
  let s₁ := s.setChild child side node
  let s₂ := s₁.replaceChild node child
  let s₃ := s₂.setParent node child
  let s₄ := s₃.setChild node side.other grandson
  if grandson ≠ nilNode then s₄.setParent grandson node else s₄

def balancedRotate (node : ℕ) (side : Side) : Option Rb := do
  guard (s.getColor (s.child node side) = .red)
  let s₁ := s.setColor (s.child node side) (s.getColor node)
  let s₂ := s₁.setColor node .red
  return s₂.rotate node side.other

/-- `rb_node_pool.alloc` handing out `n`, and the initialisation that follows it. -/
def createNode (k : ℤ) (d : Ptr) : Rb :=
  { s with
    mem := Function.update s.mem n ⟨nilNode, fun _ => nilNode, ⟨.red, k, d⟩⟩
    live := insert n s.live }

def freeMem : Rb := { s with live := s.live.erase n }

/-- No loop of the source passes a live node twice. -/
def loopBound : ℕ := s.live.card + 3

end Rb

/-- A `node_t **`: the root field of the tree or a child field of a node. -/
inductive Slot
  | root
  | child (a : ℕ) (d : Side)

def Rb.load (s : Rb) : Slot → ℕ
  | .root => s.root
  | .child a d => s.child a d

def Rb.store (s : Rb) (n : ℕ) : Slot → Rb
  | .root => { s with root := n }
  | .child a d => s.setChild a d n

/-- The side `(*cur)->key < key` selects. -/
def sideOf (curKey key : ℤ) : Side := if curKey < key then .right else .left

/-- The loop of `__traverse`: the slot reached and the parent recorded on the way. -/
def traverseLoop (s : Rb) (key : ℤ) : ℕ → Slot → ℕ → Option (Slot × ℕ)
  | 0, _, _ => none
  | fuel + 1, cur, parent =>
    let n := s.load cur
    if key ≠ s.key n then
      if n = nilNode then some (cur, parent)
      else traverseLoop s key fuel (.child n (sideOf (s.key n) key)) n
    else some (cur, parent)

def traverse (s : Rb) (key : ℤ) : Option (Slot × ℕ) :=
  traverseLoop s key s.loopBound .root nilNode

def recover : ℕ → Rb → ℕ → Option (Bool × Rb)
  | 0, _, _ => none
  | fuel + 1, s, node => do
    guard (s.getColor node = .red)
    if s.root = node then
      return (true, s.setColor node .black)
    if s.getColor (s.parent node) = .black then
      return (true, s)
    guard (s.getColor (s.grandParent node) = .black)
    if s.getColor (s.uncle node) = .red then
      let s₁ := s.setColor (s.parent node) .black
      let s₂ := s₁.setColor (s₁.uncle node) .black
      let s₃ := s₂.setColor (s₂.grandParent node) .red
      let (_, s₄) ← recover fuel s₃ (s₃.grandParent node)
      return (true, s₄)
    let (s₁, node₁) :=
      if s.getSide node ≠ s.getSide (s.parent node) then
        let s₁ := s.rotate (s.parent node) (s.getSide (s.parent node))
        (s₁, s₁.child node (s₁.getSide node))
      else (s, node)
    guard (s₁.getColor (s₁.uncle node₁) = .black)
    let s₂ ← s₁.balancedRotate (s₁.grandParent node₁) (s₁.getSide node₁)
    return (true, s₂)

/-- `alloc` is what the node pool returns, `none` for `NULL`. -/
def rbInsert (s : Rb) (key : ℤ) (data : Ptr) (alloc : Option ℕ) : Option (Bool × Rb) :=
  match alloc with
  | none => some (false, s)
  | some new => do
    let s₁ := s.createNode new key data
    if s₁.root ≠ nilNode then
      let (target, parent) ← traverse s₁ key
      if s₁.load target ≠ nilNode then
        return (false, s₁.freeMem new)
      let s₂ := s₁.setParent new parent
      let s₃ := s₂.store new target
      let (ok, s₄) ← recover s₃.loopBound s₃ new
      if ok then
        return (true, s₄)
      return (false, s₄.freeMem new)
    return (true, ({ s₁ with root := new }).setColor new .black)

def findLoop (s : Rb) (key : ℤ) : ℕ → ℕ → Option Ptr
  | 0, _ => none
  | fuel + 1, cur =>
    if key ≠ s.key cur then
      if cur = nilNode then some (s.data cur)
      else findLoop s key fuel (s.child cur (sideOf (s.key cur) key))
    else some (s.data cur)

def rbFind (s : Rb) (key : ℤ) : Option Ptr := findLoop s key s.loopBound s.root

def getMaximum (s : Rb) : ℕ → ℕ → Option ℕ
  | 0, _ => none
  | fuel + 1, node =>
    if s.child node .right ≠ nilNode then getMaximum s fuel (s.child node .right) else some node

/-- The fix-up of a removal, run while the black node is still in the tree. -/
def recoveryBlackCountBalance : ℕ → Rb → ℕ → Option Rb
  | 0, _, _ => none
  | fuel + 1, s, node => do
    let side := s.getSide node
    if s.parent node = nilNode then
      return s
    guard (s.getColor node = .black)
    let sNode := s.sibling node
    if s.getColor (s.parent sNode) = .black ∧ s.getColor sNode = .black ∧
        s.getColor (s.child sNode .left) = .black ∧
        s.getColor (s.child sNode .right) = .black then
      recoveryBlackCountBalance fuel (s.setColor sNode .red) (s.parent node)
    else if s.getColor (s.parent sNode) = .red ∧
        s.getColor (s.child sNode .left) = .black ∧
        s.getColor (s.child sNode .right) = .black then
      let s₁ := s.setColor sNode .red
      return s₁.setColor (s₁.parent node) .black
    else if s.getColor sNode = .red then
      let s₁ ← s.balancedRotate (s.parent node) side.other
      recoveryBlackCountBalance fuel s₁ node
    else
      let (s₁, sNode₁) ← if s.getColor (s.child sNode side) = .red then do
          let s₁ ← s.balancedRotate sNode side
          pure (s₁, s₁.sibling node)
        else pure (s, sNode)
      let s₂ := s₁.setColor sNode₁ (s₁.getColor (s₁.parent sNode₁))
      let s₃ := s₂.setColor (s₂.parent node) .black
      let s₄ := s₃.setColor (s₃.child sNode₁ side.other) .black
      return s₄.rotate (s₄.parent node) side

/-- With two children the key of the predecessor is copied, its data pointer is not. -/
def rbRemove (s : Rb) (key : ℤ) : Option (Bool × Rb) := do
  if s.root = nilNode then
    return (false, s)
  let (slot, _) ← traverse s key
  let target := s.load slot
  if s.key target ≠ key ∨ target = nilNode then
    return (false, s)
  let (s₁, target₁, child) ←
    if s.child target .left ≠ nilNode ∧ s.child target .right ≠ nilNode then do
      let child ← getMaximum s s.loopBound (s.child target .left)
      let s₁ := s.setKey target (s.key child)
      pure (s₁, child, s₁.child child .left)
    else
      pure (s, target, if s.child target .left ≠ nilNode then s.child target .left
        else s.child target .right)
  let s₂ ← if s₁.getColor target₁ = .black then
      recoveryBlackCountBalance s₁.loopBound s₁ target₁
    else pure s₁
  return (true, (s₂.replaceChild target₁ child).freeMem target₁)

/-- The nil node as the process starts with it. -/
def nilCell : Cell NodeVal := ⟨nilNode, fun _ => nilNode, ⟨.black, 0, 0⟩⟩

/-- `rb_create_tree` in a fresh process: only the nil node has defined contents. -/
def rbCreateTree (mem : Mem NodeVal) : Rb :=
  ⟨Function.update mem nilNode nilCell, nilNode, ∅⟩

end YwStorage.RbTree

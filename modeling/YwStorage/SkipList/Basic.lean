import YwStorage.Lib.Fuel

/-!
`ywSkipList` of `ywskiplist.h`, called by one thread. Every key owns a tower of nodes, one on each
of the lowest levels; level `0` is the top and `level - 1` the bottom, and each level is a chain
from its head to its tail.

A `none` stands for a failed assertion, an access through `NULL`, or a loop that has used up its
fuel.
-/
namespace YwStorage.Skip

/-- `ywKeyType`, an `uint32_t`. -/
abbrev Key := Fin (2 ^ 32)

def initKey : Key := 0

/-- `UINT32_MAX`. -/
def lastKey : Key := ⟨2 ^ 32 - 1, by decide⟩

def degree : ℕ := 3

/-- `64 / (1 << DEGREE)`. -/
def maxLevel : ℕ := 64 / (1 <<< degree)

/-- A `ywskNode *`. Nodes are numbered in the order in which they are made. -/
inductive Ptr
  | null
  | head (i : ℕ)
  | tail (i : ℕ)
  | node (n : ℕ)
  deriving DecidableEq

/-- The fields of the nodes, and of the list. The counters are the sums of the accumulators. -/
structure SkipList where
  next : Ptr → Ptr
  down : Ptr → Ptr
  up : Ptr → Ptr
  key : Ptr → Key
  made : ℕ
  level : ℕ
  seq : UInt64
  keyCount : ℤ
  nodeCount : ℤ

/-- `init`, with `new ywskNode[level]` for the heads and the tails. -/
def init (level : ℕ) : SkipList where
  next
    | .head i => .tail i
    | .tail i => .head i
    | _ => .null
  down
    | .head i => if i + 1 = level then .null else .head (i + 1)
    | .tail i => if i + 1 = level then .null else .tail (i + 1)
    | _ => .null
  up
    | .head i => if i = 0 then .null else .head (i - 1)
    | .tail i => if i = 0 then .null else .tail (i - 1)
    | _ => .null
  key
    | .tail _ => lastKey
    | _ => initKey
  made := 0
  level := level
  seq := 0
  keyCount := 0
  nodeCount := 0

/-- `(1 << i * DEGREE) - 1`. -/
def mask (i : ℕ) : UInt64 := UInt64.ofNat ((1 <<< (i * degree)) - 1)

/-- The loop of `get_new_level`, from `i` down. -/
def newLevelLoop (seq : UInt64) : ℕ → ℕ
  | 0 => 1
  | i + 1 => if seq &&& mask (i + 1) = mask (i + 1) then i + 2 else newLevelLoop seq i

/-- `lock` of a thread whose other locks are on its stack. `WLock` on one of these times out. -/
def lock (held : List Ptr) (p : Ptr) : Option (Bool × List Ptr) :=
  if p = .null then none
  else if p ∈ held then some (false, held)
  else if held.length < 2 * maxLevel then some (true, p :: held)
  else none

namespace SkipList

def getNewLevel (s : SkipList) : ℕ × SkipList :=
  (newLevelLoop (s.seq + 1) (s.level - 1), { s with seq := s.seq + 1 })

/-- The loop of `_search`. -/
def searchLoop (s : SkipList) (target : Key) :
    ℕ → Ptr → ℕ → (ℕ → Ptr) → Option (Ptr × (ℕ → Ptr))
  | 0, _, _, _ => none
  | fuel + 1, cursor, levelCursor, history =>
    if cursor = .null ∨ s.next cursor = .null then none
    else if s.key (s.next cursor) < target then
      searchLoop s target fuel (s.next cursor) levelCursor history
    else
      let history := Function.update history levelCursor cursor
      if s.level ≤ levelCursor + 1 then some (cursor, history)
      else searchLoop s target fuel (s.down cursor) (levelCursor + 1) history

/-- `_search`: the node it returns and the traverse history. -/
def searchFrom (s : SkipList) (target : Key) (fuel : ℕ) : Option (Ptr × (ℕ → Ptr)) :=
  s.searchLoop target fuel (.head 0) 0 fun _ => .null

def search (s : SkipList) (target : Key) (fuel : ℕ) : Option Ptr :=
  (s.searchFrom target fuel).map fun r => s.next r.1

section Insert
variable (s : SkipList) (target : Key) (history : ℕ → Ptr)

/-- Locks the nodes that `insert` links to, for each `i` of the list. `some none`: the locks have
been given back. -/
def lockBases : List ℕ → List Ptr → Option (Option (List Ptr))
  | [], held => some (some held)
  | i :: is, held =>
    let baseNode := history (s.level - i)
    (lock held baseNode).bind fun r =>
      if r.1 = false ∨ s.key (s.next baseNode) ≤ target then some none else lockBases is r.2

/-- The loop of `insert`. `some none`: the key is there already. -/
def insertLoop (newNodeLevel fuel : ℕ) : ℕ → Option (Option (ℕ → Ptr))
  | 0 => none
  | turns + 1 =>
    (s.searchFrom target fuel).bind fun r =>
      if s.key (s.next r.1) ≤ target then some none
      else
        (lockBases s target r.2 (List.range' 1 newNodeLevel) []).bind fun held =>
          match held with
          | some _ => some (some r.2)
          | none => insertLoop newNodeLevel fuel turns

/-- A new node on top of `downNode`, behind `history[level - i]`. -/
def link (downNode : Ptr) (i : ℕ) : SkipList :=
  let baseNode := history (s.level - i)
  let newNode := Ptr.node s.made
  let up := Function.update s.up newNode .null
  { s with
    made := s.made + 1
    key := Function.update s.key newNode target
    down := Function.update s.down newNode downNode
    up := if downNode = .null then up else Function.update up downNode newNode
    next := Function.update (Function.update s.next newNode (s.next baseNode)) baseNode newNode }

/-- Builds the tower bottom up. -/
def linkLoop : List ℕ → SkipList → Ptr → Option SkipList
  | [], s, _ => some s
  | i :: is, s, downNode =>
    if history (s.level - i) = .null then none
    else linkLoop is (s.link target history downNode i) (.node s.made)

end Insert

def insert (s : SkipList) (target : Key) (fuel : ℕ) : Option (Bool × SkipList) :=
  let newNodeLevel := s.getNewLevel.1
  let s := s.getNewLevel.2
  if target = initKey then some (false, s)
  else
    (s.insertLoop target newNodeLevel fuel fuel).bind fun r =>
      match r with
      | none => some (true, s)
      | some history =>
        (linkLoop target history (List.range' 1 newNodeLevel) s .null).map fun s =>
          (true,
            { s with nodeCount := s.nodeCount + newNodeLevel, keyCount := s.keyCount + 1 })

section Remove
variable (s : SkipList) (target : Key) (history : ℕ → Ptr)

/-- Locks the tower of `remNode` and the nodes before it: the depth, or `0` if it has not been
locked, and the locks. -/
def lockTower : List ℕ → Ptr → List Ptr → Option (ℕ × List Ptr)
  | [], _, held => some (0, held)
  | i :: is, remNode, held =>
    let baseNode := history (s.level - i)
    (lock held baseNode).bind fun r =>
      if r.1 = false then some (0, [])
      else
        (lock r.2 remNode).bind fun r =>
          if r.1 = false ∨ s.next baseNode ≠ remNode then some (0, [])
          else if s.up remNode = .null then some (i, r.2)
          else lockTower is (s.up remNode) r.2

/-- The loop of `remove`. `continue` goes to the test of `depth`, which is still `0`. -/
def removeLoop (fuel : ℕ) : ℕ → List Ptr → Option (ℕ × (ℕ → Ptr) × List Ptr)
  | 0, _ => none
  | turns + 1, held =>
    (s.searchFrom target fuel).bind fun r =>
      let remNode := s.next r.1
      if s.key remNode ≠ target then removeLoop fuel turns held
      else
        (lockTower s r.2 (List.range' 1 s.level) remNode held).bind fun q =>
          if q.1 = 0 then removeLoop fuel turns q.2 else some (q.1, r.2, q.2)

/-- Takes the nodes of the tower out bottom up. The last one of them is returned as well. -/
def unlinkLoop (held : List Ptr) : List ℕ → SkipList → Ptr → Option (SkipList × Ptr)
  | [], s, remNode => some (s, remNode)
  | i :: is, s, _ =>
    let baseNode := history (s.level - i)
    let remNode := s.next baseNode
    if s.key remNode = target ∧ baseNode ∈ held ∧ remNode ∈ held then
      unlinkLoop held is { s with next := Function.update s.next baseNode (s.next remNode) } remNode
    else none

end Remove

def remove (s : SkipList) (target : Key) (fuel : ℕ) : Option (Bool × SkipList) :=
  if target = initKey then some (false, s)
  else
    (s.removeLoop target fuel fuel []).bind fun r =>
      (unlinkLoop target r.2.1 r.2.2 (List.range' 1 r.1) s .null).bind fun q =>
        if q.1.up q.2 = .null then
          some (true,
            { q.1 with keyCount := q.1.keyCount - 1, nodeCount := q.1.nodeCount - r.1 })
        else none

end SkipList
end YwStorage.Skip

import YwStorage.Lib.Circular

/-!
The object pool of `ywpool.h`: a list of free objects per thread and one that all threads share. The
links of a list are stored in the pooled objects (`ywDList` of `ywsl.h`). A call runs alone, so
`tryWLock` succeeds; `none` stands for a failed assertion.
-/
namespace YwStorage.Pool
open Circular

/-- The template parameters, with the assertion on them, and `MAX_THREAD_COUNT`. -/
structure Config where
  privateCount : ℕ
  sharingThreshold : ℕ
  maxThreadCount : ℕ
  valid : privateCount ≤ sharingThreshold

/-- `SHARED_IDX`. -/
def Config.sharedIdx (c : Config) : ℕ := c.maxThreadCount

/-- A list node is the head in a slot or lies in an object. -/
inductive Addr (α : Type)
  | slot (i : ℕ)
  | obj (o : α)
  deriving DecidableEq

/-- `slot[i].list` is the node at `.slot i`; a list is never as long as `size_t` can count. -/
structure Pool (α : Type) where
  links : Links (Addr α)
  count : ℕ → ℤ

/-- The conversion of a `size_t` to `int32_t`. -/
def int32 (n : ℕ) : ℤ := ((n : ℤ) + 2 ^ 31) % 2 ^ 32 - 2 ^ 31

variable {α : Type}

def create : Pool α := ⟨⟨fun x => x, fun x => x⟩, fun _ => 0⟩

namespace Pool
variable [DecidableEq α] (c : Config) (s : Pool α)

def slotPush (i : ℕ) (x : Addr α) : Pool α :=
  ⟨s.links.attach (.slot i) x, Function.update s.count i (s.count i + 1)⟩

def slotPop (i : ℕ) : Option (Option (Addr α) × Pool α) :=
  match s.links.pop (.slot i) with
  | (none, _) => some (none, s)
  | (some x, links) =>
    if s.count i > 0 then some (some x, ⟨links, Function.update s.count i (s.count i - 1)⟩)
    else none

/-- The walk takes as many steps as `count` says, so a longer one fails here as well. -/
def validation (i : ℕ) : Bool :=
  Circular.count s.links (.slot i) ((s.count i).toNat + 1) 0 (s.links.next (.slot i)) |>.any
    fun n => n = s.count i

/-- `bring(own, head, tail, _count)`. -/
def slotBring (i own : ℕ) (head tail : Addr α) (n : ℤ) : Pool α :=
  if n ≠ 0 then
    let count := Function.update s.count i (s.count i + n)
    ⟨s.links.bring (.slot i) head tail, Function.update count own (count own - n)⟩
  else s

/-- `bring(own, _count)`. -/
def slotBringCount (i own : ℕ) (n : ℤ) : Option (Pool α) :=
  let r := walk s.links (.slot own) n.toNat 0 (.slot own)
  let t := s.slotBring i own (s.links.next (.slot own)) r.1 r.2
  if t.validation i then some t else none

def moveToSharedArea (i : ℕ) : Pool α :=
  let r := walk s.links (.slot i) c.privateCount 0 (.slot i)
  s.slotBring c.sharedIdx i (s.links.next (.slot i)) r.1 (int32 r.2)

def bringFromSharedArea (i : ℕ) : Option (Pool α) :=
  s.slotBringCount i c.sharedIdx (int32 c.privateCount)

def reclaim (tid : ℕ) : Pool α := s.moveToSharedArea c tid

def push (tid : ℕ) (o : α) : Pool α :=
  if c.privateCount = 0 then s.slotPush c.sharedIdx (.obj o)
  else
    let t := s.slotPush tid (.obj o)
    if t.count tid > c.sharingThreshold then t.moveToSharedArea c tid else t

def pop (tid : ℕ) : Option (Option (Addr α) × Pool α) :=
  if c.privateCount = 0 then s.slotPop c.sharedIdx
  else
    match s.slotPop tid with
    | none => none
    | some (some x, t) => some (some x, t)
    | some (none, t) => (t.bringFromSharedArea c tid).bind fun u => u.slotPop tid

def getPoolingCount : ℤ :=
  ((List.range c.sharedIdx).map s.count).sum + s.count c.sharedIdx

end Pool

/-- A call with the reply of `pop`. -/
inductive Label (α : Type)
  | push (tid : ℕ) (o : α)
  | pop (tid : ℕ) (ret : Option (Addr α))
  | reclaim (tid : ℕ)
  deriving DecidableEq

def Label.tid : Label α → ℕ
  | .push tid _ | .pop tid _ | .reclaim tid => tid

variable [DecidableEq α]

/-- The pushed objects without the popped ones. -/
def pooled (S : List α) : Label α → List α
  | .push _ o => o :: S
  | .pop _ (some (.obj o)) => S.erase o
  | _ => S

/-- The pool beside the list of the objects it holds; only objects outside are pushed. -/
inductive Step (c : Config) : Pool α × List α → Label α → Pool α × List α → Prop
  | push {s : Pool α} {S : List α} {tid : ℕ} {o : α} (h : o ∉ S) :
      Step c (s, S) (.push tid o) (s.push c tid o, pooled S (.push tid o))
  | pop {s t : Pool α} {S : List α} {tid : ℕ} {ret : Option (Addr α)}
      (h : s.pop c tid = some (ret, t)) :
      Step c (s, S) (.pop tid ret) (t, pooled S (.pop tid ret))
  | reclaim {s : Pool α} {S : List α} {tid : ℕ} :
      Step c (s, S) (.reclaim tid) (s.reclaim c tid, S)

end YwStorage.Pool

import Mathlib

/-!
The lock-free queue of `ywq.h`, `ywQueueHead<DATA, true>`: `push` hangs a node on the end of a ring,
which it looks for from a tail that may lag behind, and `pop` links the first node to itself before
it swings the head over it.

Memory is sequentially consistent and every step is one access of it. The log of the calls is for
the reader, no step looks at it; a node is pushed at most once.
-/
namespace YwStorage.Queue

/-- A `ywQueue<DATA> *`: the head instance of the queue or a node. -/
inductive Ptr (ν : Type*)
  | null
  | head
  | node (x : ν)
  deriving DecidableEq

/-- What a thread does next. -/
inductive Pc (ν : Type*)
  | idle
  -- `push`
  | readTail (x : ν)
  | assertTail (x : ν) (cur : Ptr ν)
  | assertNext (x : ν) (cur t : Ptr ν)
  | readNext (x : ν) (cur : Ptr ν)
  | writeNext (x : ν) (cur v : Ptr ν)
  | testNext (x : ν) (cur : Ptr ν)
  | testSelf (x : ν) (cur : Ptr ν)
  | resetTail (x : ν)
  | loadNext (x : ν) (cur : Ptr ν)
  | casTail (x : ν) (cur v : Ptr ν)
  | recheckTail (x : ν)
  | recheckNext (x : ν) (t : Ptr ν)
  | attachTail (x : ν)
  | attach (x : ν) (t : Ptr ν)
  -- `pop` and `make_circle`
  | readHead
  | readOld (ret : Ptr ν)
  | testTail (ret old : Ptr ν)
  | selfLink (ret old : Ptr ν)
  | retestTail (ret old : Ptr ν)
  /-- `cas(&tail, tail, tail->next)` with the arguments that have been read. `back` is what
  `make_circle` returns after it. -/
  | swing (back : Option (Ptr ν × Ptr ν)) (prev at' next : Option (Ptr ν))
  | swingHead (ret new : Ptr ν)
  -- a failed assertion or an access through `NULL`
  | failed
  deriving DecidableEq

inductive Event (ν : Type*)
  | push (p : Ptr ν)
  | pushed (p : Ptr ν)
  | popped (p : Ptr ν)
  deriving DecidableEq

/-- The links, the tail and the log of the calls. -/
structure Shared (ν : Type*) where
  next : Ptr ν → Ptr ν
  tail : Ptr ν
  log : List (Event ν)

/-- `ywQueueHead` and its threads. -/
structure QueueHead (τ ν : Type*) where
  mem : Shared ν
  pc : τ → Pc ν

/-- A call, or the next step of a running one. The order in which the arguments of
`cas(&tail, tail, tail->next)` are read is not fixed, `prevFirst` decides. -/
inductive Label (τ ν : Type*)
  | push (i : τ) (x : ν)
  | pop (i : τ)
  | run (i : τ) (prevFirst : Bool)
  deriving DecidableEq

/-- `make_circle` has returned `old`. -/
def circled {ν : Type*} [DecidableEq ν] (ret old : Ptr ν) : Pc ν :=
  if old = .null then .readHead else .swingHead ret old

namespace Shared
variable {ν : Type*} [DecidableEq ν] (m : Shared ν)

def setNext (p v : Ptr ν) : Shared ν := { m with next := Function.update m.next p v }

def setTail (v : Ptr ν) : Shared ν := { m with tail := v }

def record (e : Event ν) : Shared ν := { m with log := m.log ++ [e] }

/-- Reads `p->next`. -/
def deref (p : Ptr ν) (k : Ptr ν → Pc ν) : Pc ν := if p = .null then .failed else k (m.next p)

/-- The next access of a thread, and what the thread does after it. -/
def step (prevFirst : Bool) : Pc ν → Shared ν × Pc ν
  | .idle => (m, .idle)
  | .failed => (m, .failed)
  | .readTail x => (m, .assertTail x m.tail)
  | .assertTail x cur => (m, .assertNext x cur m.tail)
  | .assertNext x cur t => (m, m.deref t fun v => if v = .null then .failed else .readNext x cur)
  | .readNext x cur => (m, m.deref cur fun v => .writeNext x cur v)
  | .writeNext x cur v => (m.setNext (.node x) v, .testNext x cur)
  | .testNext x cur => (m, if m.next (.node x) = .head then .attachTail x else .testSelf x cur)
  | .testSelf x cur => (m, m.deref cur fun v => if v = cur then .resetTail x else .loadNext x cur)
  | .resetTail x => (m.setTail .head, .recheckTail x)
  | .loadNext x cur => (m, .casTail x cur (m.next (.node x)))
  | .casTail x cur v => (if m.tail = cur then m.setTail v else m, .recheckTail x)
  | .recheckTail x => (m, .recheckNext x m.tail)
  | .recheckNext x t => (m, m.deref t fun v => if v = .null then .failed else .readTail x)
  | .attachTail x => (m, .attach x m.tail)
  | .attach x t =>
    if t = .null then (m, .failed)
    else if m.next t = .head then
      ((m.setNext t (.node x)).record (.pushed (.node x)), .idle)
    else (m, .readTail x)
  | .readHead => (m, if m.next .head = .head then .idle else .readOld (m.next .head))
  | .readOld ret => (m, m.deref ret fun old => .testTail ret old)
  | .testTail ret old =>
    (m, if ret = m.tail then .swing none none none none
      else if old ≠ ret then .selfLink ret old else .readHead)
  | .selfLink ret old =>
    if m.next ret = old then (m.setNext ret ret, .retestTail ret old) else (m, .readHead)
  | .retestTail ret old =>
    (m, if ret = m.tail then .swing (some (ret, old)) none none none else circled ret old)
  | .swing back prev at' next =>
    if prev = none ∧ (prevFirst = true ∨ next ≠ none) then
      (m, .swing back (some m.tail) at' next)
    else
      match at', next with
      | none, _ => (m, .swing back prev (some m.tail) next)
      | some t, none => (m, m.deref t fun v => .swing back prev at' (some v))
      | some _, some v =>
        (if prev = some m.tail then m.setTail v else m,
          match back with
          | none => .readHead
          | some (ret, old) => circled ret old)
  | .swingHead ret new =>
    if m.next .head = ret then ((m.setNext .head new).record (.popped ret), .idle)
    else (m, .failed)

end Shared

/-- The completed pushes, in the order of their completion. -/
def pushes {ν : Type*} : List (Event ν) → List (Ptr ν) :=
  List.filterMap fun
    | .pushed p => some p
    | _ => none

/-- What `pop` has returned, in order. -/
def pops {ν : Type*} : List (Event ν) → List (Ptr ν) :=
  List.filterMap fun
    | .popped p => some p
    | _ => none

namespace QueueHead
variable {τ ν : Type*} [DecidableEq τ] [DecidableEq ν] (s : QueueHead τ ν)

/-- `init`, and nodes as they are constructed. -/
def init : QueueHead τ ν := ⟨⟨id, .head, []⟩, fun _ => .idle⟩

/-- A call starts in an idle thread, and a node is pushed once. -/
def act : Label τ ν → Option (QueueHead τ ν)
  | .push i x =>
    if s.pc i = .idle ∧ .push (.node x) ∉ s.mem.log then
      some ⟨s.mem.record (.push (.node x)), Function.update s.pc i (.readTail x)⟩
    else none
  | .pop i =>
    if s.pc i = .idle then some ⟨s.mem, Function.update s.pc i .readHead⟩ else none
  | .run i prevFirst =>
    let r := s.mem.step prevFirst (s.pc i)
    some ⟨r.1, Function.update s.pc i r.2⟩

def Step (s : QueueHead τ ν) (l : Label τ ν) (t : QueueHead τ ν) : Prop := s.act l = some t

end QueueHead
end YwStorage.Queue

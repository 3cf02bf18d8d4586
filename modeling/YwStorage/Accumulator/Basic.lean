import YwStorage.Queue.Unsync

/-!
The accumulators of `ywaccumulator.h`, `ywAccumulator<int64_t, method>`. Every accumulator owns a
slot, one cell for each thread. A slot that has been given back waits on a queue without
synchronisation whose links lie in the first cells of the slots, so the counters and the links share
one memory.
-/
namespace YwStorage.Accumulator
open Queue (Ptr)
open Queue.Unsync

/-- `-DMAX_THREAD_COUNT=32`. -/
def maxThreadCount : ℕ := 32

instance : NeZero maxThreadCount := ⟨by decide⟩

def chunkCount : ℕ := 1024

/-- `64 * CACHE_LINE_SIZE / sizeof(T)`. -/
def slotCount : ℕ := 64 * 64 / 8

def maxSlotCount : ℕ := chunkCount * slotCount

/-- The template argument `method`: `0`, `1` and `2`. -/
inductive Method
  | perThread
  | sync
  | plain
  deriving DecidableEq

/-- A `T *`: a chunk and an offset in it. -/
abbrev Addr := ℕ × ℕ

/-- What eight bytes of a chunk are used for. -/
inductive Word
  | num (v : Int64)
  | link (p : Ptr Addr)
  deriving DecidableEq

/-- The cells of the chunks and the head of the free list. -/
structure Memory where
  cell : Addr → Word
  headNext : Ptr Addr

namespace Memory

/-- `next` is the first field of `ywQueue`, so the link of a slot is its first cell. -/
def next (m : Memory) : Ptr Addr → Ptr Addr
  | .null => .null
  | .head => m.headNext
  | .node a =>
    match m.cell a with
    | .link p => p
    | .num _ => .null

def setNext (m : Memory) : Ptr Addr → Ptr Addr → Memory
  | .null, _ => m
  | .head, p => { m with headNext := p }
  | .node a, p => { m with cell := Function.update m.cell a (.link p) }

theorem next_setNext (m : Memory) (p q : Ptr Addr) (hp : p ≠ .null) :
    (m.setNext p q).next = Function.update m.next p q := by
  funext r
  cases p with
  | null => exact absurd rfl hp
  | head => cases r <;> simp [next, setNext, Function.update]
  | node a =>
    cases r with
    | null => simp [next, Function.update]
    | head => simp [next, setNext, Function.update]
    | node b =>
      by_cases hab : b = a
      · subst hab
        simp [next, setNext]
      · simp [next, setNext, hab]

end Memory

def links : Links Memory Addr := ⟨Memory.next, Memory.setNext, Memory.next_setNext⟩

/-- The fields of an accumulator. -/
structure Object where
  data : Fin maxThreadCount → Addr
  defaultData : Int64

/-- The static members of the class and the accumulators that exist. -/
structure State (ι : Type*) where
  freeList : QueueHead Memory Addr
  root : ℕ → Bool
  globalIdx : ℕ
  freeCount : ℤ
  alive : List ι
  object : ι → Object

/-- `root[idx / SLOT_COUNT] + idx % SLOT_COUNT + tid * SLOT_COUNT`. -/
def getPtr (tid idx : ℕ) : Addr := (idx / slotCount, idx % slotCount + tid * slotCount)

variable {ι : Type*}

namespace State

/-- The static members before the first accumulator; the memory may hold anything. -/
def start (m : Memory) (object : ι → Object) : State ι where
  freeList := init links m
  root _ := false
  globalIdx := 0
  freeCount := 0
  alive := []
  object := object

def cell (s : State ι) (a : Addr) : Word := s.freeList.mem.cell a

/-- The address lies in a chunk that has been allocated. -/
def inChunk (s : State ι) (a : Addr) : Bool := s.root a.1 && a.2 < slotCount * maxThreadCount

def load (s : State ι) (a : Addr) : Option Int64 :=
  if s.inChunk a then
    match s.cell a with
    | .num v => some v
    | .link _ => none
  else none

def withCells (s : State ι) (c : Addr → Word) : State ι :=
  { s with freeList.mem.cell := c }

def store (s : State ι) (a : Addr) (v : Int64) : Option (State ι) :=
  if s.inChunk a then some (s.withCells (Function.update s.cell a (.num v))) else none

def reset (s : State ι) (o : Object) : Option (State ι) :=
  (List.finRange maxThreadCount).foldlM (fun s i => s.store (o.data i) o.defaultData) s

/-- The loop of `sum`. -/
def sumData (s : State ι) (o : Object) : Option Int64 :=
  (List.finRange maxThreadCount).foldlM (fun val i => (s.load (o.data i)).map (val + ·)) 0

def sum (s : State ι) (i : ι) : Option Int64 := s.sumData (s.object i)

/-- The part of `alloc_slot` that finds a slot. -/
def takeSlot (s : State ι) (fuel : ℕ) :
    Option (Option (Fin maxThreadCount → Addr) × State ι) :=
  (s.freeList.pop links fuel).bind fun r =>
    let s := { s with freeList := r.2 }
    match r.1 with
    | .node basePtr =>
      some (some fun i => (basePtr.1, basePtr.2 + slotCount * i),
        { s with freeCount := s.freeCount - 1 })
    | .head => none
    | .null =>
      if maxSlotCount ≤ s.globalIdx then some (none, s)
      else
        let slotIdx := s.globalIdx
        some (some fun i => getPtr i slotIdx,
          { s with
            globalIdx := s.globalIdx + 1
            root := Function.update s.root (slotIdx / slotCount) true })

variable [DecidableEq ι]

/-- The constructor, with `assert(alloc_slot())`. -/
def construct (s : State ι) (i : ι) (defaultData : Int64) (fuel : ℕ) : Option (State ι) :=
  (s.takeSlot fuel).bind fun r => r.1.bind fun data =>
    let o : Object := ⟨data, defaultData⟩
    (r.2.reset o).map fun s =>
      { s with alive := i :: s.alive, object := Function.update s.object i o }

/-- The destructor and `free_slot`. -/
def destroy (s : State ι) (i : ι) (fuel : ℕ) : Option (State ι) :=
  (s.freeList.push links ((s.object i).data 0) fuel).map fun q =>
    { s with freeList := q, freeCount := s.freeCount + 1, alive := s.alive.erase i }

end State

/-- The cell that `mutate` and `set` use. -/
def Method.place (m : Method) (tid : Fin maxThreadCount) : Fin maxThreadCount :=
  match m with
  | .perThread => tid
  | .sync | .plain => 0

/-- A call by thread `tid`, where it matters. -/
inductive Call (ι : Type*)
  | construct (i : ι) (defaultData : Int64)
  | destroy (i : ι)
  | mutate (i : ι) (tid : Fin maxThreadCount) (delta : Int64)
  | set (i : ι) (tid : Fin maxThreadCount) (value : Int64)
  deriving DecidableEq

namespace State

def mutate (s : State ι) (m : Method) (i : ι) (tid : Fin maxThreadCount) (delta : Int64) :
    Option (State ι) :=
  if delta = 0 then some s
  else
    let a := (s.object i).data (m.place tid)
    (s.load a).bind fun v => s.store a (v + delta)

def set (s : State ι) (m : Method) (i : ι) (tid : Fin maxThreadCount) (value : Int64) :
    Option (State ι) :=
  s.store ((s.object i).data (m.place tid)) value

variable [DecidableEq ι]

/-- `none` is a failed assertion, an access outside of the chunks, or a counter that is read where
a link lies. -/
def act (s : State ι) (m : Method) (fuel : ℕ) : Call ι → Option (State ι)
  | .construct i defaultData => s.construct i defaultData fuel
  | .destroy i => s.destroy i fuel
  | .mutate i tid delta => s.mutate m i tid delta
  | .set i tid value => s.set m i tid value

end State

/-- An accumulator is used between its constructor and its destructor, and there are fewer of them
than slots when one is added. -/
def Call.Allowed (alive : List ι) : Call ι → Prop
  | .construct i _ => i ∉ alive ∧ alive.length < maxSlotCount
  | .destroy i | .mutate i _ _ | .set i _ _ => i ∈ alive

def Step [DecidableEq ι] (m : Method) (s : State ι) (a : Call ι) (t : State ι) : Prop :=
  a.Allowed s.alive ∧ Fuel.Returns (fun fuel => s.act m fuel a) t

end YwStorage.Accumulator

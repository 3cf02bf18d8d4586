import YwStorage.RcuRef.Basic

/-!
The object pool of `ywrcupool.h`: allocations come from reclaimed objects or from the chunks of a
memory pool (`ywmempool.h`), and a guard collects what a transaction allocates and frees. One thread
uses the pool; its transactions may overlap.
-/
namespace YwStorage.RcuPool
open Pool RcuRef

/-- `sizeof(T)` and `CHUNK_SIZE`, with the assertions on them. -/
structure Config where
  unit : ℕ
  chunkSize : ℕ
  unit_ge : 16 ≤ unit
  unit_le : unit ≤ chunkSize

def Config.perCount (c : Config) : ℕ := c.chunkSize / c.unit

/-- `2*GB / CHUNK_SIZE`. -/
def Config.chunkMaxCount (c : Config) : ℕ := 2 ^ 31 / c.chunkSize

/-- The chunk of an object and its offset there. -/
abbrev Obj : Type := ℕ × ℕ

instance : LawfulBEq Obj := inferInstance

/-- `ywPool<T>`. -/
theorem unitPool_valid : 128 ≤ 192 := by decide

def unitPool (n : ℕ) : Pool.Config := ⟨128, 192, n, unitPool_valid⟩

structure MemPool where
  pool : ℕ → List Obj
  chunkIdx : ℕ

variable {n : ℕ} (c : Config) (i : Fin n)

namespace MemPool
variable (m : MemPool)

def freeMem (o : Obj) : MemPool := { m with pool := pushed (unitPool n) m.pool i o }

/-- The loop of `alloc_chunk`; an offset grows in every turn. -/
def freeUnits (chunk : ℕ) : ℕ → ℕ → MemPool → MemPool
  | 0, _, m => m
  | fuel + 1, offset, m =>
    if offset + c.unit ≤ c.chunkSize then
      freeUnits chunk fuel (offset + c.unit) (m.freeMem i (chunk, offset))
    else m

/-- `alloc_chunk`; `malloc` tells whether there is memory. -/
def allocChunk (malloc : Bool) : Option MemPool :=
  if m.chunkIdx ≥ c.chunkMaxCount then none
  else if malloc then
    some (freeUnits c i m.chunkIdx c.chunkSize 0 { m with chunkIdx := m.chunkIdx + 1 })
  else none

def pop : Option Obj × MemPool :=
  let r := popped (unitPool n) m.pool i
  (r.1, { m with pool := r.2 })

/-- `alloc`; a new chunk has a unit, so that its loop ends with the second turn. -/
def alloc (malloc : Bool) : Option Obj × MemPool :=
  match m.pop i with
  | (some o, t) => (some o, t)
  | (none, t) =>
    match t.allocChunk c i malloc with
    | none => (none, t)
    | some u => u.pop i

def getFreeCount (n : ℕ) : ℕ :=
  ((List.range n).map fun k => (m.pool k).length).sum + (m.pool n).length

def allFree (n : ℕ) : Bool := m.getFreeCount n == m.chunkIdx * c.perCount

end MemPool

section Waiting
variable {α : Type} (s : Rcu n α)

/-- The rings that the thread can meet. -/
def rings : List (RcuRef.FreeRing α) :=
  (s.slot i).oldestRing.toList ++ reach (ringPool n) s.freeRingPool i

/-- The objects that wait for their reclamation. -/
def waiting : List α := (rings i s).flatMap RcuRef.FreeRing.items ++ (s.slot i).latestRing.items

end Waiting

/-- `ywRcuPool`. -/
structure RcuPool (n : ℕ) where
  mem : MemPool
  rcu : Rcu n Obj

namespace RcuPool
variable (p : RcuPool n)

def alloc (malloc : Bool) : Option (Option Obj × RcuPool n) :=
  match p.rcu.getReusableItem i with
  | none => none
  | some (some o, rcu) => some (some o, { p with rcu })
  | some (none, rcu) =>
    let r := p.mem.alloc c i malloc
    some (r.1, ⟨r.2, rcu⟩)

def free (o : Obj) : RcuPool n := { p with rcu := p.rcu.registFreeObj i o }

/-- The loop of `reclaim_to_pool`. -/
def reclaimLoop : ℕ → RcuPool n → Option (RcuPool n)
  | 0, _ => none
  | fuel + 1, p =>
    match p.rcu.getReusableItem i with
    | none => none
    | some (none, rcu) => some { p with rcu }
    | some (some o, rcu) => reclaimLoop fuel ⟨p.mem.freeMem i o, rcu⟩

def reclaimToPool : Option (RcuPool n) := p.reclaimLoop i ((waiting i p.rcu).length + 1)

def aging : RcuPool n := { p with rcu := p.rcu.aging i }

def allFree : Bool := p.mem.allFree c n

end RcuPool

/-- `ywRcuPoolGuard`; the newest object of a stack comes first. -/
structure Guard where
  allocStack : List Obj
  freeStack : List Obj
  deriving DecidableEq

/-- The capacity of a stack. -/
def maxCount : ℕ := 32

namespace Guard
variable (g : Guard) (p : RcuPool n)

/-- `none` when an assertion fails. -/
def alloc (malloc : Bool) : Option (Option Obj × RcuPool n × Guard) :=
  match p.alloc c i malloc with
  | none => none
  | some (none, q) => some (none, q, g)
  | some (some o, q) =>
    if o ∈ g.allocStack ∨ o ∈ g.freeStack then none
    else if g.allocStack.length < maxCount then
      some (some o, q, { g with allocStack := o :: g.allocStack })
    else some (none, q.free i o, g)

def free (o : Obj) : Option (Bool × Guard) :=
  if o ∈ g.allocStack ∨ o ∈ g.freeStack then none
  else if g.freeStack.length < maxCount then
    some (true, { g with freeStack := o :: g.freeStack })
  else some (false, g)

def commit : RcuPool n × Guard := (g.freeStack.foldl (fun p o => p.free i o) p, ⟨[], []⟩)

def rollback : RcuPool n × Guard := (g.allocStack.foldl (fun p o => p.free i o) p, ⟨[], []⟩)

end Guard

/-- The pool with its open guards; `live` lists the objects whose allocation was committed and whose
free was not. -/
structure System (n : ℕ) where
  pool : RcuPool n
  guards : List Guard
  live : List Obj

/-- Calls; `k` is the place of a guard among the open ones. -/
inductive Label
  | enter
  | alloc (k : ℕ) (malloc : Bool)
  | free (k : ℕ) (o : Obj)
  | commit (k : ℕ)
  | rollback (k : ℕ)
  | leave (k : ℕ)
  | update
  | aging
  | reclaimToPool
  deriving DecidableEq

def create (n : ℕ) : System n := ⟨⟨⟨fun _ => [], 0⟩, RcuRef.create n Obj⟩, [], []⟩

namespace System
variable (s : System n)

/-- The guard exists, and only a live object that no guard is about to free is freed. -/
def Enabled : Label → Prop
  | .alloc k _ | .commit k | .rollback k | .leave k => k < s.guards.length
  | .free k o => k < s.guards.length ∧ o ∈ s.live ∧ ∀ g ∈ s.guards, o ∉ g.freeStack
  | _ => True

/-- A call; `none` when an assertion fails. -/
def act : Label → Option (System n)
  | .enter =>
    some { s with pool := { s.pool with rcu := s.pool.rcu.fix i }, guards := ⟨[], []⟩ :: s.guards }
  | .alloc k malloc =>
    s.guards[k]?.bind fun g => (g.alloc c i s.pool malloc).map fun r =>
      { s with pool := r.2.1, guards := s.guards.set k r.2.2 }
  | .free k o =>
    s.guards[k]?.bind fun g => (g.free o).map fun r =>
      { s with guards := s.guards.set k r.2 }
  | .commit k =>
    s.guards[k]?.map fun g =>
      { pool := (g.commit i s.pool).1
        guards := s.guards.set k (g.commit i s.pool).2
        live := (g.allocStack ++ s.live).diff g.freeStack }
  | .rollback k =>
    s.guards[k]?.map fun g =>
      { s with pool := (g.rollback i s.pool).1, guards := s.guards.set k (g.rollback i s.pool).2 }
  | .leave k =>
    s.guards[k]?.map fun g =>
      let p := (g.rollback i s.pool).1
      { s with pool := { p with rcu := p.rcu.unfix i }, guards := s.guards.eraseIdx k }
  | .update => some { s with pool := { s.pool with rcu := s.pool.rcu.updateReusableTime } }
  | .aging => some { s with pool := s.pool.aging i }
  | .reclaimToPool => (s.pool.reclaimToPool i).map fun pool => { s with pool }

end System
end YwStorage.RcuPool

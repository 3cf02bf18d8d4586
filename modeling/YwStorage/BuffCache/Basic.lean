import Mathlib

/-!
The buffer cache of `ywbuffcache.h`, used by one thread.

`NULL_BCID` and `NULL_HTID` are `none`. The bodies of the caches and their `sub_info` are left out:
no function here looks at them.
-/
namespace YwStorage.BuffCache

/-- How a call can fail to return. -/
inductive Fault
  /-- An access to `_ht` at an index that is not below `_ht_size`. -/
  | table
  /-- An access to `_info` at an index that is not below `_count`. -/
  | info
  | assertion
  | diverges
  deriving DecidableEq

inductive Status
  | unused
  | init
  deriving DecidableEq

structure CacheInfo (Con : Type) where
  conId : Con
  status : Status

/-- The parameters of the constructor; `bytes` is the object representation of a `ConID`. -/
structure Config (Con : Type) where
  count : ℕ
  htSize : ℕ
  bytes : Con → List UInt8
  count_le : 8 * count ≤ htSize
  htSize_lt : htSize < 2 ^ 32

def collisionRetryCount : ℕ := 4
def hashtableRetryCount : ℕ := 32

/-- A `char` in 32-bit arithmetic; `char` is signed. -/
def signExtend (b : UInt8) : UInt32 := if b < 128 then b.toUInt32 else b.toUInt32 + 0xffffff00

def simpleHash (body : List UInt8) : UInt32 :=
  body.foldl (fun h b => ((h <<< 5) + h) ^^^ signExtend b) 5381

structure Cache (Con : Type) where
  hwm : ℕ
  info : ℕ → CacheInfo Con
  ht : ℕ → Option ℕ

namespace Cache
variable {Con : Type} [DecidableEq Con] (c : Config Con) (s : Cache Con)

/-- `_init`, where `s` is what the memory holds before. -/
def init : Cache Con := if c.count = 0 then s else { s with hwm := 0, ht := fun _ => none }

def getHt (id : Con) : ℕ := (simpleHash (c.bytes id)).toNat % c.htSize

/-- The length of the allocated table: `_init` allocates nothing without caches. -/
def htLen : ℕ := if c.count = 0 then 0 else c.htSize

def readHt (idx : ℕ) : Except Fault (Option ℕ) :=
  if idx < htLen c then .ok (s.ht idx) else .error .table

/-- The search of `alloc_cache` for an unused cache behind `bcid`, with `fuel` turns left. -/
def scanUnused : ℕ → ℕ → Option ℕ
  | 0, _ => none
  | fuel + 1, bcid =>
    let bcid := if bcid + 1 ≥ c.count then 0 else bcid + 1
    if (s.info bcid).status = .unused then some bcid else scanUnused fuel bcid

def setStatus (bcid : ℕ) (status : Status) : Cache Con :=
  { s with info := Function.update s.info bcid { s.info bcid with status } }

def allocCache : Except Fault (ℕ × Cache Con) :=
  if s.hwm < c.count then
    .ok (s.hwm, { s with hwm := s.hwm + 1 }.setStatus s.hwm .init)
  else if c.count = 0 then .error .info
  else
    -- after `_count` turns every cache has been looked at
    match s.scanUnused c c.count 0 with
    | some bcid => .ok (bcid, s.setStatus bcid .init)
    | none => .error .diverges

/-- The loop of `_ht_find`, with `i` turns left. -/
def htFindLoop (conId : Con) : ℕ → ℕ → Except Fault (Option ℕ)
  | 0, _ => .ok none
  | i + 1, idx => do
    let bcid ← s.readHt c idx
    if bcid.any fun b => (s.info b).conId = conId then return some idx
    htFindLoop conId i ((idx + 1) % 2 ^ 32)

def htFind (conId : Con) : Except Fault (Option ℕ) :=
  s.htFindLoop c conId collisionRetryCount (getHt c conId)

def findCache (conId : Con) : Except Fault (Option ℕ) := do
  let some htid ← s.htFind c conId | return none
  let some bcid ← s.readHt c htid | .error .info
  if (s.info bcid).conId = conId then return some bcid
  return none

/-- The `for` loop of `ht_regist`, with `i` turns left: the index where it stops. -/
def probe : ℕ → ℕ → Except Fault ℕ
  | 0, idx => .ok idx
  | i + 1, idx => do
    let idx := if idx + 1 ≥ c.htSize then 0 else idx + 1
    let bcid ← s.readHt c idx
    if bcid = none then return idx
    probe i idx

/-- The `do` loop of `ht_regist`, with `tryCount` turns left: the slot that is taken. -/
def placeLoop : ℕ → ℕ → Except Fault (Option ℕ)
  | 0, _ => .ok none
  | tryCount + 1, idx => do
    let bcid ← s.readHt c idx
    let idx ← if bcid = none then pure idx else s.probe c collisionRetryCount idx
    let bcid ← s.readHt c idx
    if bcid = none then return some idx
    placeLoop tryCount idx

/-- The slot that `ht_regist` takes for a content. -/
def place (conId : Con) : Except Fault (Option ℕ) :=
  s.placeLoop c hashtableRetryCount (getHt c conId)

def setConId (bcid : ℕ) (conId : Con) : Cache Con :=
  { s with info := Function.update s.info bcid { s.info bcid with conId } }

def htRegist (bcid : ℕ) (conId : Con) : Except Fault (Bool × Cache Con) := do
  if bcid ≥ c.count then .error .info
  let s₁ := s.setConId bcid conId
  if (s₁.info bcid).status = .unused then .error .assertion
  match ← s.place c conId with
  | some idx => return (true, { s₁ with ht := Function.update s₁.ht idx (some bcid) })
  | none => return (false, s₁)

def setVictim (conId : Con) : Except Fault (Bool × Cache Con) := do
  let some htid ← s.htFind c conId | return (false, s)
  let some bcid ← s.readHt c htid | return (false, s)
  if (s.info bcid).conId ≠ conId ∨ (s.info bcid).status = .unused then return (false, s)
  let s := s.setStatus bcid .unused
  return (true, { s with ht := Function.update s.ht htid none })

end Cache
end YwStorage.BuffCache

import YwStorage.Log.Append

/-!
The log store of `ywlogstore.h` with its chunk manager, over several sessions on one file.

The steps here are whole calls, except that `append` first reserves its range and writes it when the
chunk is there, and that `flush` is cut in two where it returns from `pwritev`: the process may stop
in between. `find_cache` is taken to return the chunk's own buffer, so the cache is a directory of
chunks; the first chunk of the file holds the image of the chunk manager and is kept apart.
-/
namespace YwStorage.Log

def chunkMapMax : ℕ := 65536
def maxPrepareLogCnkCnt : ℤ := 16
def flushCount : ℕ := 32

/-- `ywChunkMgr`; `pLoc` is the 24-bit `p_loc` of the chunk map. -/
structure ChunkMgr where
  lastId : ℕ
  usedCnkLoc : ℕ
  pLoc : ℕ → ℕ

/-- `alloc_chunk`, which takes back both counters when the map is full. -/
def ChunkMgr.allocChunk (m : ChunkMgr) : Option ℕ × ChunkMgr :=
  let newId := m.lastId
  let newLoc := m.usedCnkLoc
  if newId ≥ chunkMapMax then (none, m)
  else (some newId, ⟨m.lastId + 1, m.usedCnkLoc + 1,
    Function.update m.pLoc newId (newLoc % 2 ^ 24)⟩)

/-- `go_forward` when no other thread interferes: the range's position and the new value. -/
def goForward (k val size : ℕ) : ℕ × ℕ :=
  if Forward.off k val + size > 2 ^ k then (Forward.nextAlign k val, Forward.nextAlign k val + size)
  else (val, val + size)

/-- An `append` that has reserved its range: position, size and published view. -/
structure Pending where
  pos : ℕ
  size : ℕ
  view : ℕ
  deriving DecidableEq

structure LogStore where
  cnkMgr : ChunkMgr
  pending : List Pending
  /-- `find_cache`: the buffer of a chunk. -/
  cache : ℕ → Option ℕ
  /-- The buffers, one after the other. -/
  mem : ℕ → UInt8
  prepareLogCnkCnt : ℤ
  appendPos : ℕ
  writePos : ℕ
  /-- The completed chunks of a flush that has returned from `pwritev`. -/
  retiring : Option (List ℕ)
  active : Bool
  /-- The master chunk of the file. -/
  master : ChunkMgr
  file : ℕ → UInt8
  /-- Where the flushed ranges end, over all sessions. -/
  flushed : List ℕ

/-- The local variables of `flush`; the newest `iovec` comes first. -/
structure Batch where
  iov : List (ℕ × ℕ)
  freeCnkId : List ℕ
  estimatedSize : ℕ
  writePos : ℕ
  lastPtr : Option ℕ
  deriving DecidableEq

namespace LogStore
variable (s : LogStore)

/-- `create_chunk(LOG_CNK)` with the buffer that `alloc_cache` returns. -/
def createChunk (bcid : ℕ) : LogStore :=
  match s.cnkMgr.allocChunk with
  | (none, _) => s
  | (some id, cnkMgr) =>
    { s with
      cnkMgr
      cache := Function.update s.cache id (some bcid)
      mem := fun x => if x / chunkSize = bcid then 0 else s.mem x
      prepareLogCnkCnt := s.prepareLogCnkCnt + 1 }

/-- A new process on the file of `s`. -/
def restart (cnkMgr : ChunkMgr) : LogStore :=
  { s with
    cnkMgr
    cache := fun _ => none
    prepareLogCnkCnt := 0
    appendPos := 0
    writePos := 0
    pending := []
    retiring := none
    active := false }

/-- `write_master_chunk`; the buffer it borrows is free before and after. -/
def writeMasterChunk : LogStore := { s with master := s.cnkMgr }

/-- `create_master` on a new object. -/
def createMaster (bcid : ℕ) : LogStore :=
  let s₁ := s.restart ⟨0, 0, s.cnkMgr.pLoc⟩
  let s₂ := { s₁ with cnkMgr := s₁.cnkMgr.allocChunk.2 }.createChunk bcid
  { s₂ with appendPos := chunkSize, writePos := chunkSize, active := true }.writeMasterChunk

def reloadMaster : LogStore :=
  { s with
    cnkMgr := s.master
    appendPos := s.master.lastId * chunkSize
    writePos := s.master.lastId * chunkSize
    active := true }

def reserveSpace (bcid : ℕ) : LogStore :=
  if s.prepareLogCnkCnt < maxPrepareLogCnkCnt - 1 then s.createChunk bcid else s

/-- `append` up to its reservation. -/
def append (size : ℕ) : LogStore :=
  let range := goForward 24 s.appendPos size
  { s with
    appendPos := range.2
    pending := ⟨range.1, size, s.appendPos / chunkSize⟩ :: s.pending }

/-- `value->write(ptr)` and the reset of the view. -/
def put (p : Pending) (bcid : ℕ) (body : ℕ → UInt8) : LogStore :=
  let ptr := bcid * chunkSize + p.pos % chunkSize
  { s with
    mem := fun x => if ptr ≤ x ∧ x < ptr + p.size then body (x - ptr) else s.mem x
    pending := s.pending.erase p }

/-- `appender_view_pos.min()`. -/
def viewMin : ℕ := (s.pending.map Pending.view).foldl min viewDefault

/-- The unit at `ptr` is attached to the last `iovec` or begins a new one; `none` when the `iovec`
would outgrow a chunk. -/
def addUnit (b : Batch) (ptr offset : ℕ) : Option (List (ℕ × ℕ)) :=
  match b.iov with
  | (base, len) :: rest =>
    if b.lastPtr = some ptr ∧ offset ≠ 0 then
      if len + flushUnit ≤ chunkSize then some ((base, len + flushUnit) :: rest) else none
    else some ((ptr, flushUnit) :: b.iov)
  | [] => some [(ptr, flushUnit)]

/-- The other variables after the unit at `write_pos` has been taken. -/
def takeUnit (b : Batch) (bcid : ℕ) (iov : List (ℕ × ℕ)) : Batch where
  iov := iov
  freeCnkId :=
    if b.writePos % chunkSize + flushUnit = chunkSize then b.writePos / chunkSize :: b.freeCnkId
    else b.freeCnkId
  estimatedSize := b.estimatedSize + flushUnit
  writePos := (goForward 24 b.writePos flushUnit).2
  lastPtr := some (bcid * chunkSize + b.writePos % chunkSize + flushUnit)

/-- The loop of `flush`; `none` when one of its assertions fails. -/
def collect : ℕ → Batch → Option Batch
  | 0, b => some b
  | fuel + 1, b =>
    if b.writePos + flushUnit > s.appendPos then some b
    else
      let id := b.writePos / chunkSize
      let offset := b.writePos % chunkSize
      match s.cache id with
      | none => some b
      | some bcid =>
        if s.viewMin ≤ id then some b
        else if offset % flushUnit = 0 ∧ offset + flushUnit ≤ chunkSize then
          match addUnit b (bcid * chunkSize + offset) offset with
          | none => none
          | some iov =>
            let b' := takeUnit b bcid iov
            if iov.length < flushCount then collect fuel b' else some b'
        else none

def batch : Option Batch :=
  s.collect (s.appendPos / flushUnit + 1) ⟨[], [], 0, s.writePos, none⟩

/-- The byte at index `j` of what a list of `iovec`s stands for. -/
def gather (mem : ℕ → UInt8) : List (ℕ × ℕ) → ℕ → UInt8
  | [], _ => 0
  | (base, len) :: rest, j => if j < len then mem (base + j) else gather mem rest (j - len)

/-- The file after `size` bytes of the `iovec`s have been written at `off`. -/
def pwritev (iov : List (ℕ × ℕ)) (off size : ℕ) : ℕ → UInt8 := fun q =>
  if off ≤ q ∧ q < off + size then gather s.mem iov (q - off) else s.file q

/-- `p_loc * CHUNK_SIZE + offset`. -/
def writePhyOffset : ℕ :=
  s.cnkMgr.pLoc (s.writePos / chunkSize) * chunkSize + s.writePos % chunkSize

/-- `flush` up to its return from `pwritev`; `ret` is `none` for an error of `pwritev`, and `io`
tells whether there is one at all. -/
def flush (io : Bool) (ret : Option ℕ) (b : Batch) : LogStore :=
  if b.iov = [] then s
  else if io then
    if ret = some b.estimatedSize then
      { s with
        writePos := b.writePos
        file := s.pwritev b.iov.reverse s.writePhyOffset b.estimatedSize
        retiring := some b.freeCnkId
        flushed := b.writePos :: s.flushed }
    else { s with file := s.pwritev b.iov.reverse s.writePhyOffset (ret.getD 0) }
  else { s with writePos := b.writePos, retiring := some b.freeCnkId }

/-- What `flush` returns. -/
def flushReturn (io : Bool) (ret : Option ℕ) (b : Batch) : Bool :=
  !b.iov.isEmpty && (!io || ret == some b.estimatedSize)

/-- The rest of `flush`: the completed chunks leave the cache. -/
def retire (ids : List ℕ) : LogStore :=
  let s₁ := { s with
    cache := fun id => if id ∈ ids then none else s.cache id
    prepareLogCnkCnt := s.prepareLogCnkCnt - ids.length
    retiring := none }
  if ids = [] then s₁ else s₁.writeMasterChunk

inductive Label
  | reload
  | stop
  | reserveSpace (bcid : ℕ)
  | append (size : ℕ)
  | put (p : Pending) (bcid : ℕ) (body : ℕ → UInt8)
  | flush (ret : Option ℕ)
  | retire

inductive Step (io : Bool) : LogStore → Label → LogStore → Prop
  | reload {s : LogStore} (h : s.active = false) : Step io s .reload s.reloadMaster
  -- shutdown or crash
  | stop {s : LogStore} : Step io s .stop (s.restart ⟨0, 0, s.cnkMgr.pLoc⟩)
  | reserveSpace {s : LogStore} {bcid : ℕ} (h : s.active = true) (hflush : s.retiring = none)
      (hfree : ∀ id, s.cache id ≠ some bcid) :
      Step io s (.reserveSpace bcid) (s.reserveSpace bcid)
  | append {s : LogStore} {size : ℕ} (h : s.active = true) :
    Step io s (.append size) (s.append size)
  | put {s : LogStore} {p : Pending} {bcid : ℕ} {body : ℕ → UInt8} (h : p ∈ s.pending)
      (hfind : s.cache (p.pos / chunkSize) = some bcid) :
      Step io s (.put p bcid body) (s.put p bcid body)
  | flush {s : LogStore} {ret : Option ℕ} {b : Batch} (h : s.active = true)
      (hflush : s.retiring = none) (hbatch : s.batch = some b)
      (hret : ∀ size, ret = some size → size ≤ b.estimatedSize) :
      Step io s (.flush ret) (s.flush io ret b)
  | retire {s : LogStore} {ids : List ℕ} (hids : s.retiring = some ids)
      (hassert : ∀ id ∈ ids, id < s.writePos / chunkSize) : Step io s .retire (s.retire ids)

end LogStore
end YwStorage.Log

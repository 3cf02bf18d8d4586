import YwStorage.Lib.Bytes
import YwStorage.Log.Store

/-!
The chunk manager of `ywchunkmgr.h` and the archives of `ywarchive.h` through which the master chunk
is written and read. `map_lock` is always granted. An access outside the chunk map or outside the
archive's buffer is a fault, at which the run ends.
-/
namespace YwStorage.Format
open Bytes Log

/-- `ywCnkInfo`: a word with two bit fields. -/
structure CnkInfo where
  type : BitVec 8
  pLoc : BitVec 24
  deriving DecidableEq

namespace CnkInfo

/-- `ywCnkInfo(_type, _p_loc)`. -/
def make (type : ℤ) (pLoc : ℕ) : CnkInfo := ⟨BitVec.ofInt 8 type, BitVec.ofNat 24 pLoc⟩

def getInt (info : CnkInfo) : ℕ := info.type.toNat + 2 ^ 8 * info.pLoc.toNat

def ofInt (word : ℕ) : CnkInfo := ⟨BitVec.ofNat 8 word, BitVec.ofNat 24 (word / 2 ^ 8)⟩

def getSize : ℕ := 4

theorem ofInt_getInt (info : CnkInfo) : ofInt info.getInt = info := by
  have htype := info.type.isLt
  have hloc := info.pLoc.isLt
  have hmod : info.getInt % 2 ^ 8 = info.type.toNat := by
    unfold getInt
    omega
  have hdiv : info.getInt / 2 ^ 8 = info.pLoc.toNat := by
    unfold getInt
    omega
  obtain ⟨type, pLoc⟩ := info
  unfold ofInt
  rw [hdiv]
  simp only [mk.injEq]
  constructor
  · refine BitVec.eq_of_toNat_eq ?_
    rw [BitVec.toNat_ofNat, hmod]
  · exact BitVec.ofNat_toNat .. |>.trans (BitVec.setWidth_eq _)

theorem getInt_lt (info : CnkInfo) : info.getInt < 256 ^ getSize := by
  have htype := info.type.isLt
  have hloc := info.pLoc.isLt
  unfold getInt getSize
  omega

end CnkInfo

/-- `NULL_CNKID`. -/
def nullCnkId : ℕ := 2 ^ 32 - 1

/-- `ywChunkMgr`. -/
structure ChunkMgr where
  chunkMap : ℕ → CnkInfo
  lastId : ℕ
  usedCnkLoc : ℕ

namespace ChunkMgr
variable (m : ChunkMgr)

/-- `ywChunkMgr()`; the constructor of the entries leaves their locations as they are. -/
def create (pLoc : ℕ → BitVec 24) : ChunkMgr := ⟨fun id => ⟨0, pLoc id⟩, 0, 0⟩

/-- `_regist_cnk`. -/
def registCnk (id : ℕ) (type : ℤ) (pLoc : ℕ) : Option ChunkMgr :=
  if id ≥ chunkMapMax then none
  else some { m with chunkMap := Function.update m.chunkMap id (.make type pLoc) }

/-- `alloc_chunk`; `none` when an assertion fails. -/
def allocChunk (type : ℤ) : Option (ℕ × ChunkMgr) := do
  guard (m.lastId ≠ nullCnkId)
  let newId := m.lastId
  let newLoc := m.usedCnkLoc
  let m₁ := { m with lastId := m.lastId + 1, usedCnkLoc := (m.usedCnkLoc + 1) % 2 ^ 32 }
  match m₁.registCnk newId type newLoc with
  | some m₂ => return (newId, m₂)
  | none => do
    -- `_free_last_cnk_id` and `_reclaim_free_space`
    guard (newId = m₁.lastId - 1)
    guard (newLoc = (m₁.usedCnkLoc + 2 ^ 32 - 1) % 2 ^ 32)
    return (nullCnkId, { m₁ with
      lastId := m₁.lastId - 1
      usedCnkLoc := (m₁.usedCnkLoc + 2 ^ 32 - 1) % 2 ^ 32 })

/-- Calls of `alloc_chunk` one after the other, with the ids they return. -/
def allocAll : ChunkMgr → List ℤ → Option (List ℕ × ChunkMgr)
  | m, [] => some ([], m)
  | m, type :: types => (m.allocChunk type).bind fun r =>
    (allocAll r.2 types).map fun q => (r.1 :: q.1, q.2)

/-- The counters stay in step, and the map does not overflow. -/
structure Valid : Prop where
  step : m.usedCnkLoc = m.lastId
  bound : m.lastId ≤ chunkMapMax

variable {m}

theorem create_valid (pLoc : ℕ → BitVec 24) : (create pLoc).Valid := ⟨rfl, Nat.zero_le _⟩

namespace Valid

theorem allocChunk_room (h : m.Valid) (hroom : m.lastId < chunkMapMax) (type : ℤ) :
    m.allocChunk type = some (m.lastId, ⟨Function.update m.chunkMap m.lastId
      (.make type m.lastId), m.lastId + 1, m.lastId + 1⟩) := by
  have hmax : chunkMapMax = 65536 := rfl
  have hnull : m.lastId ≠ nullCnkId := by
    unfold nullCnkId
    omega
  have hused : (m.usedCnkLoc + 1) % 2 ^ 32 = m.lastId + 1 := by
    rw [h.step]
    omega
  have hin : ¬ m.lastId ≥ chunkMapMax := Nat.not_le_of_lt hroom
  unfold allocChunk registCnk
  rw [hused]
  simp [guard, hnull, hin, h.step]

/-- A call that finds the map full takes back what it did. -/
theorem allocChunk_full (h : m.Valid) (hfull : chunkMapMax ≤ m.lastId) (type : ℤ) :
    m.allocChunk type = some (nullCnkId, m) := by
  have hmax : chunkMapMax = 65536 := rfl
  have hbound := h.bound
  have hstep := h.step
  have hnull : m.lastId ≠ nullCnkId := by
    unfold nullCnkId
    omega
  have hused : ((m.usedCnkLoc + 1) % 2 ^ 32 + 2 ^ 32 - 1) % 2 ^ 32 = m.usedCnkLoc := by omega
  unfold allocChunk registCnk
  simp only [hused, Nat.add_sub_cancel]
  simp [guard, hnull, hfull]

theorem allocChunk_valid (h : m.Valid) (type : ℤ) :
    ∃ id m', m.allocChunk type = some (id, m') ∧ m'.Valid := by
  by_cases hroom : m.lastId < chunkMapMax
  · exact ⟨_, _, h.allocChunk_room hroom type, rfl, hroom⟩
  · exact ⟨_, _, h.allocChunk_full (Nat.le_of_not_lt hroom) type, h⟩

theorem allocAll_valid (h : m.Valid) (types : List ℤ) :
    ∃ ids m', m.allocAll types = some (ids, m') ∧ m'.Valid := by
  induction types generalizing m with
  | nil => exact ⟨[], m, rfl, h⟩
  | cons type types ih =>
    obtain ⟨id, m₁, halloc, hvalid⟩ := h.allocChunk_valid type
    obtain ⟨ids, m₂, hall, hvalid₂⟩ := ih hvalid
    refine ⟨id :: ids, m₂, ?_, hvalid₂⟩
    rw [allocAll, halloc, Option.bind_some, hall]
    rfl

end Valid

/-- What the log store uses of the manager. -/
def toLog (m : ChunkMgr) : Log.ChunkMgr :=
  ⟨m.lastId, m.usedCnkLoc, fun id => (m.chunkMap id).pLoc.toNat⟩

/-- The log store's manager allocates as this one does. -/
theorem allocChunk_toLog (h : m.Valid) (type : ℤ) :
    ∃ id m', m.allocChunk type = some (id, m') ∧
      m.toLog.allocChunk = (if id = nullCnkId then none else some id, m'.toLog) := by
  have hmax : chunkMapMax = 65536 := rfl
  by_cases hroom : m.lastId < chunkMapMax
  · refine ⟨_, _, h.allocChunk_room hroom type, ?_⟩
    have hnull : m.lastId ≠ nullCnkId := by
      unfold nullCnkId
      omega
    have hin : ¬ m.lastId ≥ chunkMapMax := Nat.not_le_of_lt hroom
    rw [if_neg hnull]
    unfold Log.ChunkMgr.allocChunk toLog
    simp only [if_neg hin, Prod.mk.injEq, Log.ChunkMgr.mk.injEq, true_and, h.step]
    funext id
    by_cases hid : id = m.lastId
    · subst hid
      rw [Function.update_self, Function.update_self, CnkInfo.make, BitVec.toNat_ofNat]
    · rw [Function.update_of_ne hid, Function.update_of_ne hid]
  · have hfull := Nat.le_of_not_lt hroom
    refine ⟨_, _, h.allocChunk_full hfull type, ?_⟩
    rw [if_pos rfl]
    exact if_pos hfull

theorem created_allocates : ∃ m id m', allocChunk m 1 = some (id, m') := by
  obtain ⟨id, m', halloc, -⟩ := allocChunk_toLog (create_valid fun _ => 0) 1
  exact ⟨_, id, m', halloc⟩

end ChunkMgr

/-- An access to memory that is not the program's. -/
inductive Fault
  | outsideMap (i : ℕ)
  | outsideImage (offset : ℕ)
  deriving DecidableEq

/-- The state of `ywar_serialize` and `ywar_deserialize`. -/
structure ArBuffer where
  size : ℕ
  buffer : Mem
  offset : ℕ

/-- What `dump` of the chunk manager uses of an archive: `dump_int` and `dump` get a value and
return the value it has afterwards. -/
structure Archive (σ : Type) where
  dumpInt : σ → ℕ → Except Fault (Bool × ℕ × σ)
  dump : σ → CnkInfo → Except Fault (Bool × CnkInfo × σ)

def serialize : Archive ArBuffer where
  dumpInt s v :=
    if s.offset + 4 > s.size then .ok (false, v, s)
    else .ok (true, v, { s with buffer := store s.buffer s.offset 4 v, offset := s.offset + 4 })
  dump s v :=
    if s.offset + CnkInfo.getSize > s.size then .ok (false, v, s)
    else .ok (true, v, { s with
      buffer := store s.buffer s.offset CnkInfo.getSize v.getInt
      offset := s.offset + CnkInfo.getSize })

def deserialize : Archive ArBuffer where
  dumpInt s v :=
    if s.offset + 4 > s.size then .ok (false, v, s)
    else .ok (true, load s.buffer s.offset 4, { s with offset := s.offset + 4 })
  dump s _ :=
    -- `read` comes before the test
    if s.offset + CnkInfo.getSize > s.size then .error (.outsideImage s.offset)
    else
      let v := CnkInfo.ofInt (load s.buffer s.offset CnkInfo.getSize)
      if s.offset + CnkInfo.getSize > s.size then .ok (false, v, s)
      else .ok (true, v, { s with offset := s.offset + CnkInfo.getSize })

namespace ChunkMgr
variable {σ : Type} (ar : Archive σ)

/-- The loop of `dump`; `i` counts up to `last_id`. -/
def dumpLoop : ℕ → ℕ → ChunkMgr → σ → Except Fault (Bool × ChunkMgr × σ)
  | 0, _, m, s => .ok (true, m, s)
  | n + 1, i, m, s =>
    if i < m.lastId then
      if i ≥ chunkMapMax then .error (.outsideMap i)
      else do
        let r ← ar.dump s (m.chunkMap i)
        let m := { m with chunkMap := Function.update m.chunkMap i r.2.1 }
        if r.1 then dumpLoop n (i + 1) m r.2.2 else return (false, m, r.2.2)
    else .ok (true, m, s)

def dump (m : ChunkMgr) (s : σ) : Except Fault (Bool × ChunkMgr × σ) := do
  let r ← ar.dumpInt s m.lastId
  let m := { m with lastId := r.2.1 }
  if r.1 = false then return (false, m, r.2.2)
  let r ← ar.dumpInt r.2.2 m.usedCnkLoc
  let m := { m with usedCnkLoc := r.2.1 }
  if r.1 = false then return (false, m, r.2.2)
  dumpLoop ar m.lastId 0 m r.2.2

end ChunkMgr
end YwStorage.Format

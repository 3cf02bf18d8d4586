import YwStorage.Format.ChunkMgr

/-! What is read from a master chunk: the manager that wrote it, or whatever a file holds. -/
namespace YwStorage.Format
open Bytes Log

namespace ChunkMgr
variable {m : ChunkMgr} {s : ArBuffer} {i n k : ℕ}

theorem dumpLoop_serialize (hlast : i + n = m.lastId) (hmax : m.lastId ≤ chunkMapMax)
    (hroom : s.offset + 4 * n ≤ s.size) :
    ∃ t, dumpLoop serialize n i m s = .ok (true, m, t) ∧
      (∀ j, j < n → load t.buffer (s.offset + 4 * j) 4 = (m.chunkMap (i + j)).getInt) ∧
      ∀ x, x < s.offset → t.buffer x = s.buffer x := by
  induction n generalizing i s with
  | zero => exact ⟨s, rfl, fun j hj => absurd hj (Nat.not_lt_zero j), fun _ _ => rfl⟩
  | succ n ih =>
    have hin : i < m.lastId := by omega
    have hmap : ¬ i ≥ chunkMapMax := by omega
    have hfits : ¬ s.offset + CnkInfo.getSize > s.size := by
      unfold CnkInfo.getSize
      omega
    obtain ⟨t, heq, hwords, hkeep⟩ := ih (i := i + 1)
      (s := ⟨s.size, store s.buffer s.offset CnkInfo.getSize (m.chunkMap i).getInt,
        s.offset + CnkInfo.getSize⟩) (by omega) (by simp only [CnkInfo.getSize]; omega)
    have hself : ⟨Function.update m.chunkMap i (m.chunkMap i), m.lastId, m.usedCnkLoc⟩ = m := by
      rw [Function.update_eq_self]
    refine ⟨t, ?_, fun j hj => ?_, fun x hx => ?_⟩
    · rw [dumpLoop, if_pos hin, if_neg hmap]
      simp only [serialize, if_neg hfits]
      show dumpLoop serialize n (i + 1) _ _ = _
      rw [hself, heq]
    · cases j with
      | zero =>
        have hword : load t.buffer s.offset 4 =
            load (store s.buffer s.offset 4 (m.chunkMap i).getInt) s.offset 4 :=
          load_congr fun x hx => hkeep _ (by simp only [CnkInfo.getSize]; omega)
        have hlt : (m.chunkMap i).getInt < 256 ^ 4 := (m.chunkMap i).getInt_lt
        rw [Nat.mul_zero, Nat.add_zero, Nat.add_zero, hword, load_store, Nat.mod_eq_of_lt hlt]
      | succ j =>
        have hword := hwords j (by omega)
        rwa [show s.offset + CnkInfo.getSize + 4 * j = s.offset + 4 * (j + 1) by
          unfold CnkInfo.getSize; omega, show i + 1 + j = i + (j + 1) by omega] at hword
    · rw [hkeep x (by simp only; omega)]
      exact store_of_lt hx

/-- The manager after `k` entries from `i` on have been read. -/
def filled (m : ChunkMgr) (s : ArBuffer) (i k : ℕ) : ChunkMgr :=
  { m with chunkMap := fun j => if i ≤ j ∧ j < i + k then
      CnkInfo.ofInt (load s.buffer (s.offset + 4 * (j - i)) 4) else m.chunkMap j }

theorem dumpLoop_deserialize (hlast : i + k ≤ m.lastId) (hmax : i + k ≤ chunkMapMax)
    (hroom : s.offset + 4 * k ≤ s.size) :
    dumpLoop deserialize (n + k) i m s =
      dumpLoop deserialize n (i + k) (m.filled s i k) { s with offset := s.offset + 4 * k } := by
  induction k generalizing i m s with
  | zero =>
    have hsame : m.filled s i 0 = m := by
      unfold filled
      congr 1
      funext j
      rw [if_neg (by omega)]
    rw [hsame]
    rfl
  | succ k ih =>
    have hin : i < m.lastId := by omega
    have hmap : ¬ i ≥ chunkMapMax := by omega
    have hfits : ¬ s.offset + CnkInfo.getSize > s.size := by
      unfold CnkInfo.getSize
      omega
    rw [← Nat.add_assoc, dumpLoop, if_pos hin, if_neg hmap]
    simp only [deserialize, if_neg hfits]
    show dumpLoop deserialize (n + k) (i + 1) _ _ = _
    rw [ih (by simp only; omega) (by omega) (by simp only [CnkInfo.getSize]; omega)]
    have hnext : filled ⟨Function.update m.chunkMap i (CnkInfo.ofInt
        (load s.buffer s.offset CnkInfo.getSize)), m.lastId, m.usedCnkLoc⟩
        { s with offset := s.offset + CnkInfo.getSize } (i + 1) k = m.filled s i (k + 1) := by
      unfold filled
      congr 1
      funext j
      simp only
      by_cases hj : j = i
      · subst hj
        rw [if_neg (by omega), if_pos (by omega), Function.update_self, Nat.sub_self]
        rfl
      · by_cases hin' : i + 1 ≤ j ∧ j < i + 1 + k
        · rw [if_pos hin', if_pos (by omega)]
          congr 2
          unfold CnkInfo.getSize
          omega
        · rw [if_neg hin', if_neg (by omega), Function.update_of_ne hj]
    rw [hnext]
    congr 1
    · omega
    · simp only [ArBuffer.mk.injEq, true_and, CnkInfo.getSize]
      omega

/-- The counters are read first, and nothing is tested before the entries. -/
theorem dump_deserialize (m : ChunkMgr) (image : Mem) :
    m.dump deserialize ⟨chunkSize, image, 0⟩ =
      dumpLoop deserialize (load image 0 4) 0
        { m with lastId := load image 0 4, usedCnkLoc := load image 4 4 }
        ⟨chunkSize, image, 8⟩ := by
  have hfirst : ¬ 0 + 4 > chunkSize := by
    unfold chunkSize
    omega
  have hsecond : ¬ 0 + 4 + 4 > chunkSize := by
    unfold chunkSize
    omega
  unfold dump
  simp only [deserialize, if_neg hfirst]
  show (do
    let r ← deserialize.dumpInt ⟨chunkSize, image, 0 + 4⟩ m.usedCnkLoc
    _) = _
  simp only [deserialize, if_neg hsecond]
  rfl

theorem dump_serialize (h : m.Valid) (buffer : Mem) :
    ∃ t, m.dump serialize ⟨chunkSize, buffer, 0⟩ = .ok (true, m, t) ∧
      load t.buffer 0 4 = m.lastId ∧ load t.buffer 4 4 = m.usedCnkLoc ∧
      ∀ id, id < m.lastId → load t.buffer (8 + 4 * id) 4 = (m.chunkMap id).getInt := by
  have hmax : chunkMapMax = 65536 := rfl
  have hbound := h.bound
  have hstep := h.step
  have hsize : chunkSize = 2 ^ 24 := rfl
  have hfirst : ¬ 0 + 4 > chunkSize := by omega
  have hsecond : ¬ 0 + 4 + 4 > chunkSize := by omega
  obtain ⟨t, heq, hwords, hkeep⟩ := dumpLoop_serialize (i := 0) (m := m)
    (s := ⟨chunkSize, store (store buffer 0 4 m.lastId) (0 + 4) 4 m.usedCnkLoc, 0 + 4 + 4⟩)
    (Nat.zero_add _) h.bound (by simp only; omega)
  simp only at hwords hkeep
  refine ⟨t, ?_, ?_, ?_, fun id hid => ?_⟩
  · unfold dump
    simp only [serialize, if_neg hfirst]
    show (do
      let r ← serialize.dumpInt ⟨chunkSize, store buffer 0 4 m.lastId, 0 + 4⟩ m.usedCnkLoc
      _) = _
    simp only [serialize, if_neg hsecond]
    exact heq
  · have hlast : load t.buffer 0 4 = load (store buffer 0 4 m.lastId) 0 4 := by
      refine load_congr fun x hx => ?_
      rw [hkeep _ (by omega)]
      exact store_of_lt (by omega)
    rw [hlast, load_store]
    exact Nat.mod_eq_of_lt (by omega)
  · have hused : load t.buffer 4 4 =
        load (store (store buffer 0 4 m.lastId) 4 4 m.usedCnkLoc) 4 4 :=
      load_congr fun x hx => hkeep _ (by omega)
    rw [hused, load_store]
    exact Nat.mod_eq_of_lt (by omega)
  · have hword := hwords id hid
    rwa [Nat.zero_add id] at hword

/-- A count that the map can hold is loaded. -/
theorem dump_deserialize_fits (m : ChunkMgr) {image : Mem} (hfits : load image 0 4 ≤ chunkMapMax) :
    m.dump deserialize ⟨chunkSize, image, 0⟩ = .ok (true,
      filled { m with lastId := load image 0 4, usedCnkLoc := load image 4 4 }
        ⟨chunkSize, image, 8⟩ 0 (load image 0 4),
      ⟨chunkSize, image, 8 + 4 * load image 0 4⟩) := by
  have hmax : chunkMapMax = 65536 := rfl
  have hsize : chunkSize = 2 ^ 24 := rfl
  have hloop := dumpLoop_deserialize (i := 0) (n := 0) (k := load image 0 4)
    (m := { m with lastId := load image 0 4, usedCnkLoc := load image 4 4 })
    (s := ⟨chunkSize, image, 8⟩) (by simp only; omega) (by omega) (by simp only; omega)
  rw [Nat.zero_add] at hloop
  rw [dump_deserialize, hloop]
  rfl

/-- A count above that leads out of the map. -/
theorem dump_deserialize_overflow (m : ChunkMgr) {image : Mem}
    (hover : chunkMapMax < load image 0 4) :
    m.dump deserialize ⟨chunkSize, image, 0⟩ = .error (.outsideMap chunkMapMax) := by
  have hmax : chunkMapMax = 65536 := rfl
  have hsize : chunkSize = 2 ^ 24 := rfl
  obtain ⟨n, hn⟩ := Nat.exists_eq_add_of_lt hover
  have hloop := dumpLoop_deserialize (i := 0) (n := n + 1) (k := chunkMapMax)
    (m := { m with lastId := load image 0 4, usedCnkLoc := load image 4 4 })
    (s := ⟨chunkSize, image, 8⟩) (by simp only; omega) (by omega) (by simp only; omega)
  have hcount : load image 0 4 = n + 1 + chunkMapMax := by omega
  rw [dump_deserialize, hcount]
  rw [hcount] at hloop
  rw [hloop, Nat.zero_add, dumpLoop]
  have hlt : chunkMapMax < n + 1 + chunkMapMax := by omega
  exact (if_pos hlt).trans (if_pos (Nat.le_refl _))

/-- Managers that are the same up to `last_id`. -/
structure Agree (m m' : ChunkMgr) : Prop where
  lastId : m'.lastId = m.lastId
  usedCnkLoc : m'.usedCnkLoc = m.usedCnkLoc
  info : ∀ id, id < m.lastId → m'.chunkMap id = m.chunkMap id

namespace Agree
variable {m' : ChunkMgr} (h : Agree m m') (hvalid : m.Valid)
include h hvalid

theorem valid : m'.Valid := by
  refine ⟨?_, ?_⟩
  · rw [h.usedCnkLoc, h.lastId, hvalid.step]
  · rw [h.lastId]
    exact hvalid.bound

theorem allocChunk (type : ℤ) : ∃ id m₁ m₁', m.allocChunk type = some (id, m₁) ∧
    m'.allocChunk type = some (id, m₁') ∧ m₁.Valid ∧ Agree m₁ m₁' := by
  have hvalid' := h.valid hvalid
  by_cases hroom : m.lastId < chunkMapMax
  · have halloc' := hvalid'.allocChunk_room (by rwa [h.lastId]) type
    rw [h.lastId] at halloc'
    refine ⟨_, _, _, hvalid.allocChunk_room hroom type, halloc', ⟨rfl, hroom⟩, rfl, rfl, ?_⟩
    intro id hid
    simp only at hid ⊢
    by_cases heq : id = m.lastId
    · subst heq
      rw [Function.update_self, Function.update_self]
    · rw [Function.update_of_ne heq, Function.update_of_ne heq, h.info id (by omega)]
  · have hfull := Nat.le_of_not_lt hroom
    exact ⟨_, _, _, hvalid.allocChunk_full hfull type,
      hvalid'.allocChunk_full (by rwa [h.lastId]) type, hvalid, h⟩

theorem allocAll (types : List ℤ) : ∃ ids m₁ m₁', m.allocAll types = some (ids, m₁) ∧
    m'.allocAll types = some (ids, m₁') ∧ Agree m₁ m₁' := by
  induction types generalizing m m' with
  | nil => exact ⟨[], m, m', rfl, rfl, h⟩
  | cons type types ih =>
    obtain ⟨id, m₁, m₁', halloc, halloc', hvalid₁, hagree⟩ := h.allocChunk hvalid type
    obtain ⟨ids, m₂, m₂', hall, hall', hagree₂⟩ := ih hagree hvalid₁
    refine ⟨id :: ids, m₂, m₂', ?_, ?_, hagree₂⟩
    · rw [ChunkMgr.allocAll, halloc, Option.bind_some, hall]
      rfl
    · rw [ChunkMgr.allocAll, halloc', Option.bind_some, hall']
      rfl

end Agree
end ChunkMgr

open ChunkMgr

/-- The manager that any allocations lead to is written to a master chunk and read back from it, and
the two go on alike; a full map refuses a chunk and stays as it is. -/
theorem masterChunk_roundTrip (pLoc pLoc' : ℕ → BitVec 24) (types : List ℤ) (buffer : Mem) :
    ∃ ids m, (create pLoc).allocAll types = some (ids, m) ∧
      (∀ type, chunkMapMax ≤ m.lastId → m.allocChunk type = some (nullCnkId, m)) ∧
      ∃ t, m.dump serialize ⟨chunkSize, buffer, 0⟩ = .ok (true, m, t) ∧
        ∃ m' t', (create pLoc').dump deserialize ⟨chunkSize, t.buffer, 0⟩ = .ok (true, m', t') ∧
          Agree m m' ∧ ∀ types', ∃ ids' m₁ m₁', m.allocAll types' = some (ids', m₁) ∧
            m'.allocAll types' = some (ids', m₁') ∧ Agree m₁ m₁' := by
  obtain ⟨ids, m, hall, hvalid⟩ := (create_valid pLoc).allocAll_valid types
  obtain ⟨t, hdump, hlast, hused, hinfo⟩ := dump_serialize hvalid buffer
  have hfits : load t.buffer 0 4 ≤ chunkMapMax := hlast ▸ hvalid.bound
  have hload := dump_deserialize_fits (create pLoc') hfits
  have hagree : Agree m (filled ⟨(create pLoc').chunkMap, load t.buffer 0 4, load t.buffer 4 4⟩
      ⟨chunkSize, t.buffer, 8⟩ 0 (load t.buffer 0 4)) := by
    refine ⟨hlast, hused, fun id hid => ?_⟩
    unfold filled
    simp only
    rw [if_pos (by omega), Nat.sub_zero, hinfo id hid, CnkInfo.ofInt_getInt]
  exact ⟨ids, m, hall, fun type hfull => hvalid.allocChunk_full hfull type, t, hdump, _, _, hload,
    hagree, hagree.allocAll hvalid⟩

/-- Loading stays inside the map and the image, and changes nothing when it fails. -/
def LoadSafe (image : Mem) : Prop :=
  ∀ m : ChunkMgr, ∃ b m' t, m.dump deserialize ⟨chunkSize, image, 0⟩ = .ok (b, m', t) ∧
    (b = false → m' = m)

/-- The count at the beginning of the image decides. -/
theorem loadSafe_iff (image : Mem) : LoadSafe image ↔ load image 0 4 ≤ chunkMapMax := by
  constructor
  · intro h
    by_contra hover
    obtain ⟨b, m', t, hdump, -⟩ := h (create fun _ => 0)
    rw [dump_deserialize_overflow _ (Nat.lt_of_not_le hover)] at hdump
    cases hdump
  · intro hfits m
    exact ⟨_, _, _, dump_deserialize_fits m hfits, fun h => by cases h⟩

/-- An image that counts one chunk more than the map has. -/
def overlongImage : Mem := store (fun _ => 0) 0 4 65537

theorem overlongImage_not_safe : ¬ LoadSafe overlongImage := by
  intro h
  obtain ⟨b, m', t, hdump, -⟩ := h (create fun _ => 0)
  have hcount : chunkMapMax < load overlongImage 0 4 := by decide
  rw [dump_deserialize_overflow _ hcount] at hdump
  cases hdump

end YwStorage.Format

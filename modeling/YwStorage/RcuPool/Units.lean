import YwStorage.RcuPool.Basic

/-! The units of the memory pool: a chunk is cut into units that are free at first. -/
namespace YwStorage.RcuPool
open Pool RcuRef

variable {n : ℕ} {c : Config} {i : Fin n} {m : MemPool}

/-- The units of a chunk from the `k`-th on. -/
def unitsFrom (c : Config) (chunk k len : ℕ) : List Obj :=
  (List.range' k len).map fun j => (chunk, j * c.unit)

def unitsOf (c : Config) (chunk : ℕ) : List Obj := unitsFrom c chunk 0 c.perCount

/-- All units of the pool's chunks. -/
def units (c : Config) (m : MemPool) : List Obj := (List.range m.chunkIdx).flatMap (unitsOf c)

theorem unit_pos (c : Config) : 0 < c.unit := Nat.lt_of_lt_of_le (by decide) c.unit_ge

theorem length_unitsOf (c : Config) (chunk : ℕ) : (unitsOf c chunk).length = c.perCount := by
  simp [unitsOf, unitsFrom]

theorem nodup_unitsOf (c : Config) (chunk : ℕ) : (unitsOf c chunk).Nodup := by
  refine List.Nodup.map ?_ List.nodup_range'
  intro a b heq
  exact Nat.eq_of_mul_eq_mul_right (unit_pos c) (Prod.mk.inj heq).2

theorem fst_of_mem_unitsOf {chunk : ℕ} {o : Obj} (h : o ∈ unitsOf c chunk) : o.1 = chunk := by
  obtain ⟨j, -, rfl⟩ := List.mem_map.mp h
  rfl

theorem nodup_units (c : Config) (m : MemPool) : (units c m).Nodup := by
  refine List.nodup_flatMap.mpr ⟨fun k _ => nodup_unitsOf c k, List.nodup_range.imp ?_⟩
  intro a b hab o ha hb
  exact hab ((fst_of_mem_unitsOf ha).symm.trans (fst_of_mem_unitsOf hb))

theorem length_units (c : Config) (m : MemPool) :
    (units c m).length = m.chunkIdx * c.perCount := by
  unfold units
  induction m.chunkIdx with
  | zero => simp
  | succ k ih =>
    rw [List.range_succ, List.flatMap_append, List.length_append, ih, Nat.succ_mul]
    simp [length_unitsOf]

/-- The free units that the thread can reach. -/
def freeList (i : Fin n) (m : MemPool) : List Obj := reach (unitPool n) m.pool i

theorem unit_shared_ne (i : Fin n) : i.val ≠ (unitPool n).sharedIdx := Nat.ne_of_lt i.isLt

theorem freeList_freeMem (m : MemPool) (i : Fin n) (o : Obj) :
    (freeList i (m.freeMem i o)).Perm (o :: freeList i m) :=
  reach_pushed (unit_shared_ne i) o

theorem freeList_pop (m : MemPool) (i : Fin n) :
    (freeList i m).Perm ((m.pop i).1.toList ++ freeList i (m.pop i).2) :=
  reach_popped (unit_shared_ne i)

/-- The lists of other threads stay empty. -/
def Alone (i : Fin n) (m : MemPool) : Prop := ∀ k, k ≠ i.val → k ≠ n → m.pool k = []

theorem alone_freeMem (h : Alone i m) (o : Obj) : Alone i (m.freeMem i o) := by
  intro k hk hn
  have hshared : k ≠ (unitPool n).sharedIdx := hn
  exact (pushed_other hk hshared).trans (h k hk hn)

theorem alone_pop (h : Alone i m) : Alone i (m.pop i).2 := by
  intro k hk hn
  have hshared : k ≠ (unitPool n).sharedIdx := hn
  exact (popped_other hk hshared).trans (h k hk hn)

/-- The thread and the shared list hold all that is counted. -/
theorem getFreeCount_eq (h : Alone i m) : m.getFreeCount n = (freeList i m).length := by
  have hsum : ((List.range n).map fun k => (m.pool k).length).sum = (m.pool i).length := by
    rw [← List.sum_toFinset _ List.nodup_range, List.toFinset_range]
    refine Finset.sum_eq_single_of_mem _ (Finset.mem_range.mpr i.isLt) fun k hk hne => ?_
    rw [h k hne (Nat.ne_of_lt (Finset.mem_range.mp hk)), List.length_nil]
  rw [MemPool.getFreeCount, hsum, freeList, reach, List.length_append]
  rfl

theorem freeUnits_spec (chunk : ℕ) {fuel k : ℕ} (hfuel : c.perCount - k ≤ fuel) :
    (freeList i (MemPool.freeUnits c i chunk fuel (k * c.unit) m)).Perm
      (unitsFrom c chunk k (c.perCount - k) ++ freeList i m) ∧
    (MemPool.freeUnits c i chunk fuel (k * c.unit) m).chunkIdx = m.chunkIdx ∧
    (Alone i m → Alone i (MemPool.freeUnits c i chunk fuel (k * c.unit) m)) := by
  induction fuel generalizing k m with
  | zero =>
    rw [Nat.le_zero.mp hfuel]
    exact ⟨.refl _, rfl, fun h => h⟩
  | succ fuel ih =>
    have hroom : k * c.unit + c.unit ≤ c.chunkSize ↔ k + 1 ≤ c.perCount := by
      rw [Config.perCount, Nat.le_div_iff_mul_le (unit_pos c), Nat.succ_mul]
    rw [MemPool.freeUnits]
    split
    · rename_i hle
      have hk := hroom.mp hle
      have hlen : c.perCount - k = c.perCount - (k + 1) + 1 := by omega
      obtain ⟨hperm, hidx, halone⟩ :=
        ih (k := k + 1) (m := m.freeMem i (chunk, k * c.unit)) (by omega)
      rw [Nat.succ_mul] at hperm hidx halone
      refine ⟨hperm.trans ?_, hidx, fun h => halone (alone_freeMem h _)⟩
      rw [hlen, unitsFrom, unitsFrom, List.range'_succ, List.map_cons]
      exact ((freeList_freeMem m i _).append_left _).trans List.perm_middle
    · rename_i hgt
      have hzero : c.perCount - k = 0 := by
        have := mt hroom.mpr hgt
        omega
      rw [hzero]
      exact ⟨.refl _, rfl, fun h => h⟩

theorem allocChunk_spec {t : MemPool} {malloc : Bool} (h : m.allocChunk c i malloc = some t) :
    (freeList i t).Perm (unitsOf c m.chunkIdx ++ freeList i m) ∧
    units c t = units c m ++ unitsOf c m.chunkIdx ∧ (Alone i m → Alone i t) := by
  unfold MemPool.allocChunk at h
  split at h
  · cases h
  · split at h
    · obtain rfl := Option.some.inj h
      have hfuel : c.perCount - 0 ≤ c.chunkSize := Nat.div_le_self ..
      have hspec := freeUnits_spec (i := i) (m := { m with chunkIdx := m.chunkIdx + 1 })
        m.chunkIdx hfuel
      rw [Nat.zero_mul] at hspec
      obtain ⟨hperm, hidx, halone⟩ := hspec
      refine ⟨hperm, ?_, halone⟩
      rw [units, hidx, List.range_succ, List.flatMap_append]
      simp [units]
    · cases h

/-- An allocation takes a free unit, after it has added a chunk's units at most. -/
theorem alloc_spec (m : MemPool) (malloc : Bool) : ∃ new,
    (units c (m.alloc c i malloc).2).Perm (new ++ units c m) ∧
    ((m.alloc c i malloc).1.toList ++ freeList i (m.alloc c i malloc).2).Perm
      (new ++ freeList i m) ∧
    (Alone i m → Alone i (m.alloc c i malloc).2) := by
  have hpop := freeList_pop m i
  unfold MemPool.alloc
  split
  · rename_i o t heq
    rw [heq] at hpop
    have hidx : t.chunkIdx = m.chunkIdx := congrArg (fun r => r.2.chunkIdx) heq.symm
    refine ⟨[], ?_, hpop.symm, fun h => ?_⟩
    · rw [units, hidx]
      exact .refl _
    · have := alone_pop h
      rwa [heq] at this
  · rename_i t heq
    rw [heq] at hpop
    have hidx : t.chunkIdx = m.chunkIdx := congrArg (fun r => r.2.chunkIdx) heq.symm
    have hunits : units c t = units c m := by rw [units, hidx, units]
    have halone : Alone i m → Alone i t := fun h => by
      have := alone_pop h
      rwa [heq] at this
    split
    · refine ⟨[], ?_, hpop.symm, halone⟩
      rw [hunits]
      exact .refl _
    · rename_i u hchunk
      obtain ⟨hfree, hall, hrest⟩ := allocChunk_spec hchunk
      refine ⟨unitsOf c t.chunkIdx, ?_, ?_, fun h => alone_pop (hrest (halone h))⟩
      · have hpopped : units c (u.pop i).2 = units c u := rfl
        rw [hpopped, hall, hunits]
        exact List.perm_append_comm
      · exact (freeList_pop u i).symm.trans (hfree.trans (hpop.symm.append_left _))

end YwStorage.RcuPool

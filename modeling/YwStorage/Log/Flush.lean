import YwStorage.Log.Store

/-!
The flusher writes every byte at the file offset that is its log position: chunk ids and physical
locations are given out in lockstep, and the batch of a flush is contiguous.
-/
namespace YwStorage.Log
open Lts

/-- A position at the beginning of a unit moves on by a whole unit. -/
theorem goForward_unit {w : ℕ} (h : w % flushUnit = 0) :
    (goForward 24 w flushUnit).2 = w + flushUnit := by
  have hlt : w % 2 ^ 24 < 2 ^ 32 := by omega
  have hfit : ¬ w % 2 ^ 24 + flushUnit > 2 ^ 24 := by
    unfold flushUnit at *
    omega
  rw [goForward, Forward.off_eq 24 hlt, if_neg hfit]

namespace ChunkMgr

/-- Ids and physical locations have been given out in lockstep. -/
structure Lockstep (m : ChunkMgr) : Prop where
  used : m.usedCnkLoc = m.lastId
  bound : m.lastId ≤ chunkMapMax
  loc : ∀ id, id < m.lastId → m.pLoc id = id

variable {m : ChunkMgr}

theorem lockstep_zero (pLoc : ℕ → ℕ) : Lockstep ⟨0, 0, pLoc⟩ :=
  ⟨rfl, Nat.zero_le _, fun _ hid => absurd hid (Nat.not_lt_zero _)⟩

theorem allocChunk_cases (m : ChunkMgr) :
    (m.allocChunk = (none, m) ∧ chunkMapMax ≤ m.lastId) ∨
    (m.allocChunk = (some m.lastId, ⟨m.lastId + 1, m.usedCnkLoc + 1,
      Function.update m.pLoc m.lastId (m.usedCnkLoc % 2 ^ 24)⟩) ∧ m.lastId < chunkMapMax) := by
  unfold allocChunk
  by_cases h : m.lastId ≥ chunkMapMax
  · exact .inl ⟨if_pos h, h⟩
  · exact .inr ⟨if_neg h, Nat.lt_of_not_le h⟩

theorem Lockstep.allocChunk (h : m.Lockstep) : m.allocChunk.2.Lockstep := by
  rcases m.allocChunk_cases with ⟨heq, _⟩ | ⟨heq, hlt⟩
  · rw [heq]
    exact h
  · rw [heq]
    refine ⟨?_, hlt, ?_⟩
    · show m.usedCnkLoc + 1 = m.lastId + 1
      rw [h.used]
    · intro id hid
      show Function.update m.pLoc m.lastId (m.usedCnkLoc % 2 ^ 24) id = id
      by_cases hnew : id = m.lastId
      · subst hnew
        -- an id fits into the 24 bits of `p_loc`
        rw [Function.update_self, h.used]
        exact Nat.mod_eq_of_lt (Nat.lt_of_lt_of_le hlt (by decide))
      · rw [Function.update_of_ne hnew]
        have hid' : id < m.lastId + 1 := hid
        exact h.loc id (by omega)

end ChunkMgr

namespace LogStore
variable {s t : LogStore}

theorem gather_append (mem : ℕ → UInt8) (l l' : List (ℕ × ℕ)) (j : ℕ) :
    gather mem (l ++ l') j =
      if j < (l.map Prod.snd).sum then gather mem l j
      else gather mem l' (j - (l.map Prod.snd).sum) := by
  induction l generalizing j with
  | nil => simp
  | cons e l ih =>
    obtain ⟨base, len⟩ := e
    rw [List.cons_append, gather, gather, List.map_cons, List.sum_cons, ih]
    by_cases hj : j < len
    · rw [if_pos hj, if_pos hj, if_pos (by omega)]
    · rw [if_neg hj, if_neg hj]
      by_cases hl : j - len < (l.map Prod.snd).sum
      · rw [if_pos hl, if_pos (by omega)]
      · rw [if_neg hl, if_neg (by omega)]
        congr 1
        omega

/-- The batch holds the cached bytes of the positions from `old` on. -/
structure Collected (s : LogStore) (old : ℕ) (b : Batch) : Prop where
  writePos_eq : b.writePos = old + b.estimatedSize
  aligned : b.writePos % flushUnit = 0
  nonempty : b.iov ≠ [] → 0 < b.estimatedSize
  sum_eq : (b.iov.reverse.map Prod.snd).sum = b.estimatedSize
  bytes : ∀ j, j < b.estimatedSize → ∃ bcid, s.cache ((old + j) / chunkSize) = some bcid ∧
    gather s.mem b.iov.reverse j = s.mem (bcid * chunkSize + (old + j) % chunkSize)
  last : ∀ base len rest, b.iov = (base, len) :: rest →
    b.lastPtr = some (base + len) ∧ base % chunkSize + len ≤ chunkSize
  free : ∀ id ∈ b.freeCnkId, id < b.writePos / chunkSize

/-- What it takes for `iov` to be `old` with a unit at `ptr` behind it. -/
structure Extends (mem : ℕ → UInt8) (old : List (ℕ × ℕ)) (size ptr : ℕ) (iov : List (ℕ × ℕ)) :
    Prop where
  sum_eq : (iov.reverse.map Prod.snd).sum = size + flushUnit
  before : ∀ j, j < size → gather mem iov.reverse j = gather mem old.reverse j
  unit : ∀ j, j < flushUnit → gather mem iov.reverse (size + j) = mem (ptr + j)
  last : ∀ base len rest, iov = (base, len) :: rest →
    base + len = ptr + flushUnit ∧ base % chunkSize + len ≤ chunkSize

theorem extends_new (mem : ℕ → UInt8) {iov : List (ℕ × ℕ)} {size ptr : ℕ}
    (hsum : (iov.reverse.map Prod.snd).sum = size)
    (hptr : ptr % chunkSize + flushUnit ≤ chunkSize) :
    Extends mem iov size ptr ((ptr, flushUnit) :: iov) := by
  refine ⟨?_, ?_, ?_, ?_⟩
  · rw [List.reverse_cons, List.map_append, List.sum_append, hsum]
    simp
  · intro j hj
    rw [List.reverse_cons, gather_append, hsum, if_pos hj]
  · intro j hj
    rw [List.reverse_cons, gather_append, hsum, if_neg (by omega), Nat.add_sub_cancel_left, gather,
      if_pos hj]
  · intro base len rest heq
    cases heq
    exact ⟨rfl, hptr⟩

theorem extends_attach (mem : ℕ → UInt8) {base len ptr size : ℕ} {rest : List (ℕ × ℕ)}
    (hsum : (((base, len) :: rest).reverse.map Prod.snd).sum = size) (hptr : base + len = ptr)
    (hlen : base % chunkSize + (len + flushUnit) ≤ chunkSize) :
    Extends mem ((base, len) :: rest) size ptr ((base, len + flushUnit) :: rest) := by
  have hrest : (rest.reverse.map Prod.snd).sum + len = size := by
    rw [List.reverse_cons, List.map_append, List.sum_append] at hsum
    simpa using hsum
  refine ⟨?_, ?_, ?_, ?_⟩
  · rw [List.reverse_cons, List.map_append, List.sum_append]
    simp only [List.map_cons, List.map_nil, List.sum_cons, List.sum_nil]
    omega
  · intro j hj
    rw [List.reverse_cons, List.reverse_cons, gather_append, gather_append]
    by_cases hlt : j < (rest.reverse.map Prod.snd).sum
    · rw [if_pos hlt, if_pos hlt]
    · have hlen : j - (rest.reverse.map Prod.snd).sum < len := by omega
      rw [if_neg hlt, if_neg hlt, gather, if_pos (by omega), gather, if_pos hlen]
  · intro j hj
    rw [List.reverse_cons, gather_append, if_neg (by omega), gather, if_pos (by omega)]
    congr 1
    omega
  · intro base' len' rest' heq
    cases heq
    exact ⟨by omega, hlen⟩

/-- Attached or not, the bytes of the unit follow; a unit that is attached lies in the chunk of the
`iovec`, so that the assertion on its length holds. -/
theorem addUnit_spec {b : Batch} {old ptr offset : ℕ} (h : s.Collected old b)
    (hptr : ptr % chunkSize = offset) (hoff : offset + flushUnit ≤ chunkSize) :
    ∃ iov, addUnit b ptr offset = some iov ∧ Extends s.mem b.iov b.estimatedSize ptr iov := by
  have hsum := h.sum_eq
  rw [← hptr] at hoff
  unfold addUnit
  split
  · rename_i base len rest hiov
    obtain ⟨hlast, hlen⟩ := h.last base len rest hiov
    rw [hiov] at hsum ⊢
    split
    · rename_i hattach
      rw [hlast, Option.some.injEq] at hattach
      have hmod : ptr % chunkSize = (base % chunkSize + len) % chunkSize := by
        rw [← hattach.1, Nat.mod_add_mod]
      have hfit : base % chunkSize + (len + flushUnit) ≤ chunkSize := by
        rcases Nat.lt_or_eq_of_le hlen with hlt | heq
        · rw [Nat.mod_eq_of_lt hlt] at hmod
          omega
        · rw [heq, Nat.mod_self] at hmod
          exact absurd (hptr.symm.trans hmod) hattach.2
      exact ⟨_, if_pos (by omega), extends_attach s.mem hsum hattach.1 hfit⟩
    · exact ⟨_, rfl, extends_new s.mem hsum hoff⟩
  · rename_i hiov
    rw [hiov] at hsum ⊢
    exact ⟨_, rfl, extends_new s.mem hsum hoff⟩

theorem takeUnit_writePos {b : Batch} (h : b.writePos % flushUnit = 0) (bcid : ℕ)
    (iov : List (ℕ × ℕ)) : (takeUnit b bcid iov).writePos = b.writePos + flushUnit := by
  rw [takeUnit, goForward_unit h]

theorem takeUnit_estimatedSize (b : Batch) (bcid : ℕ) (iov : List (ℕ × ℕ)) :
    (takeUnit b bcid iov).estimatedSize = b.estimatedSize + flushUnit := by
  rw [takeUnit]

theorem collected_takeUnit {b : Batch} {old bcid : ℕ} {iov : List (ℕ × ℕ)} (h : s.Collected old b)
    (hfind : s.cache (b.writePos / chunkSize) = some bcid)
    (hext : Extends s.mem b.iov b.estimatedSize (bcid * chunkSize + b.writePos % chunkSize) iov) :
    s.Collected old (takeUnit b bcid iov) := by
  have hforward := takeUnit_writePos h.aligned bcid iov
  have haligned := h.aligned
  have hpos := h.writePos_eq
  refine ⟨?_, ?_, ?_, hext.sum_eq, ?_, ?_, ?_⟩
  · rw [hforward, hpos, Nat.add_assoc, takeUnit_estimatedSize]
  · rw [hforward, Nat.add_mod_right, haligned]
  · intro _
    rw [takeUnit_estimatedSize]
    exact Nat.lt_of_lt_of_le (by decide) (Nat.le_add_left flushUnit b.estimatedSize)
  · intro j hj
    by_cases hbefore : j < b.estimatedSize
    · obtain ⟨c, hc, hbyte⟩ := h.bytes j hbefore
      exact ⟨c, hc, (hext.before j hbefore).trans hbyte⟩
    · -- the unit lies in one chunk
      rw [takeUnit_estimatedSize] at hj
      obtain ⟨i, rfl⟩ := Nat.exists_eq_add_of_le (Nat.le_of_not_lt hbefore)
      have hi : i < flushUnit := by omega
      have hdiv : (old + (b.estimatedSize + i)) / chunkSize = b.writePos / chunkSize := by
        unfold chunkSize flushUnit at *
        omega
      have hmod : (old + (b.estimatedSize + i)) % chunkSize = b.writePos % chunkSize + i := by
        unfold chunkSize flushUnit at *
        omega
      refine ⟨bcid, by rw [hdiv, hfind], ?_⟩
      rw [hmod, ← Nat.add_assoc]
      exact hext.unit i hi
  · intro base len rest heq
    obtain ⟨hlast, hlen⟩ := hext.last base len rest heq
    refine ⟨?_, hlen⟩
    rw [hlast]
    rfl
  · intro id hid
    rw [hforward]
    have hold : ∀ id ∈ b.freeCnkId, id < (b.writePos + flushUnit) / chunkSize := by
      intro id hid
      exact Nat.lt_of_lt_of_le (h.free id hid) (Nat.div_le_div_right (Nat.le_add_right _ _))
    unfold takeUnit at hid
    split at hid
    · rename_i hlast
      rcases List.mem_cons.mp hid with rfl | hid
      · unfold chunkSize flushUnit at *
        omega
      · exact hold id hid
    · exact hold id hid

/-- The loop of `flush` keeps the batch faithful and its assertions hold. -/
theorem collect_spec (fuel : ℕ) {b : Batch} {old : ℕ} (h : s.Collected old b) :
    ∃ b', s.collect fuel b = some b' ∧ s.Collected old b' := by
  induction fuel generalizing b with
  | zero => exact ⟨b, rfl, h⟩
  | succ fuel ih =>
    rw [collect]
    split
    · exact ⟨b, rfl, h⟩
    simp only
    split
    · exact ⟨b, rfl, h⟩
    · rename_i bcid hfind
      have hassert : b.writePos % chunkSize % flushUnit = 0 ∧
          b.writePos % chunkSize + flushUnit ≤ chunkSize := by
        have := h.aligned
        unfold chunkSize flushUnit at *
        omega
      have hptr : (bcid * chunkSize + b.writePos % chunkSize) % chunkSize =
          b.writePos % chunkSize := by
        rw [Nat.mul_add_mod_self_right, Nat.mod_mod]
      obtain ⟨iov, hiov, hext⟩ := addUnit_spec h hptr hassert.2
      have hnext := collected_takeUnit h hfind hext
      rw [if_pos hassert, hiov]
      split
      · exact ⟨b, rfl, h⟩
      · simp only
        split
        · exact ih hnext
        · exact ⟨_, rfl, hnext⟩

/-- Once no further unit fits below `append_pos`, more fuel changes nothing. -/
theorem collect_enough (fuel : ℕ) {b : Batch} (haligned : b.writePos % flushUnit = 0)
    (hfuel : s.appendPos < b.writePos + (fuel + 1) * flushUnit) :
    s.collect (fuel + 1) b = s.collect fuel b := by
  induction fuel generalizing b with
  | zero =>
    have hstop : b.writePos + flushUnit > s.appendPos := by omega
    simp only [collect, if_pos hstop]
  | succ fuel ih =>
    have hnext : ∀ bcid iov, s.collect (fuel + 1) (takeUnit b bcid iov) =
        s.collect fuel (takeUnit b bcid iov) := by
      intro bcid iov
      have hforward := takeUnit_writePos haligned bcid iov
      refine ih ?_ ?_
      · rw [hforward, Nat.add_mod_right, haligned]
      · rw [hforward]
        rw [Nat.add_mul] at hfuel
        omega
    rw [collect, collect]
    simp only [hnext]

theorem batch_eq_collect (haligned : s.writePos % flushUnit = 0) (extra : ℕ) :
    s.collect (s.appendPos / flushUnit + 1 + extra) ⟨[], [], 0, s.writePos, none⟩ = s.batch := by
  induction extra with
  | zero => rfl
  | succ extra ih =>
    rw [← ih]
    refine collect_enough _ haligned ?_
    have hlt := Nat.lt_div_mul_add (a := s.appendPos) (show 0 < flushUnit by decide)
    show s.appendPos < s.writePos + (s.appendPos / flushUnit + 1 + extra + 1) * flushUnit
    have hle : (s.appendPos / flushUnit + 1) * flushUnit ≤
        (s.appendPos / flushUnit + 1 + extra + 1) * flushUnit :=
      Nat.mul_le_mul_right _ (by omega)
    rw [Nat.add_mul, Nat.one_mul] at hle
    omega

/-- What holds in every session. -/
structure Inv (s : LogStore) : Prop where
  cnkMgr : s.cnkMgr.Lockstep
  master : s.master.Lockstep
  cached : ∀ id bcid, s.cache id = some bcid → id < s.cnkMgr.lastId
  aligned : s.writePos % flushUnit = 0
  retiring : ∀ ids, s.retiring = some ids → ∀ id ∈ ids, id < s.writePos / chunkSize
  idle : s.active = false → s.cache = (fun _ => none) ∧ s.retiring = none

theorem createChunk_cases (s : LogStore) (bcid : ℕ) :
    s.createChunk bcid = s ∨ s.createChunk bcid = { s with
      cnkMgr := s.cnkMgr.allocChunk.2
      cache := Function.update s.cache s.cnkMgr.lastId (some bcid)
      mem := fun x => if x / chunkSize = bcid then 0 else s.mem x
      prepareLogCnkCnt := s.prepareLogCnkCnt + 1 } ∧
      s.cnkMgr.allocChunk.2.lastId = s.cnkMgr.lastId + 1 := by
  unfold createChunk
  rcases s.cnkMgr.allocChunk_cases with ⟨heq, _⟩ | ⟨heq, _⟩
  · rw [heq]
    exact .inl rfl
  · rw [heq]
    exact .inr ⟨rfl, rfl⟩

theorem Inv.createChunk (h : s.Inv) (hactive : s.active = true) (bcid : ℕ) :
    (s.createChunk bcid).Inv := by
  rcases s.createChunk_cases bcid with heq | ⟨heq, hlast⟩
  · rw [heq]
    exact h
  · rw [heq]
    refine ⟨h.cnkMgr.allocChunk, h.master, ?_, h.aligned, h.retiring, ?_⟩
    rotate_left
    · intro hidle
      exact absurd (hactive.symm.trans hidle) (by decide)
    intro id c hc
    show id < s.cnkMgr.allocChunk.2.lastId
    rw [hlast]
    by_cases hid : id = s.cnkMgr.lastId
    · omega
    · have hc' : Function.update s.cache s.cnkMgr.lastId (some bcid) id = some c := hc
      rw [Function.update_of_ne hid] at hc'
      exact Nat.lt_succ_of_lt (h.cached id c hc')

theorem aligned_chunk (id : ℕ) : id * chunkSize % flushUnit = 0 := by
  unfold chunkSize flushUnit
  omega

theorem inv_createMaster (s : LogStore) (bcid : ℕ) : (s.createMaster bcid).Inv := by
  have hlockstep : ∀ pLoc, (ChunkMgr.allocChunk ⟨0, 0, pLoc⟩).2.allocChunk.2.Lockstep :=
    fun pLoc => (ChunkMgr.lockstep_zero pLoc).allocChunk.allocChunk
  have hcached : ∀ id c, (s.createMaster bcid).cache id = some c → id = 1 := by
    intro id c hc
    by_contra hne
    have hc' : Function.update (fun _ => none) 1 (some bcid) id = some c := hc
    rw [Function.update_of_ne hne] at hc'
    cases hc'
  refine ⟨hlockstep _, hlockstep _, ?_, ?_, fun _ heq => (by cases heq), fun heq => (by cases heq)⟩
  · intro id c hc
    rw [hcached id c hc]
    exact Nat.lt_succ_self 1
  · show chunkSize % flushUnit = 0
    decide

theorem Inv.batch (h : s.Inv) : ∃ b, s.batch = some b ∧ s.Collected s.writePos b := by
  refine collect_spec _ ⟨rfl, h.aligned, ?_, rfl, ?_, ?_, ?_⟩
  · intro hne
    exact absurd rfl hne
  · intro j hj
    exact absurd hj (Nat.not_lt_zero _)
  · intro base len rest heq
    cases heq
  · intro id hid
    cases hid

/-- The first unit of a batch is cached, so the offset of the write is the log position. -/
theorem Inv.writePhyOffset_eq (h : s.Inv) {b : Batch} (hb : s.Collected s.writePos b)
    (hne : b.iov ≠ []) : s.writePhyOffset = s.writePos := by
  obtain ⟨bcid, hfind, _⟩ := hb.bytes 0 (hb.nonempty hne)
  have hlt := h.cached _ _ hfind
  unfold writePhyOffset
  rw [h.cnkMgr.loc (s.writePos / chunkSize) hlt]
  exact Nat.div_add_mod' _ _

/-- `flush` keeps the invariant: the completed chunks end below the new `write_pos`. -/
theorem Inv.flush (h : s.Inv) (hactive : s.active = true) (io : Bool) (ret : Option ℕ) {b : Batch}
    (hb : s.Collected s.writePos b) : (s.flush io ret b).Inv := by
  have hidle : ∀ {p : Prop}, s.active = false → p := by
    intro p hidle
    exact absurd (hactive.symm.trans hidle) (by decide)
  have hfree : ∀ ids, some b.freeCnkId = some ids → ∀ id ∈ ids, id < b.writePos / chunkSize := by
    intro ids heq
    cases heq
    exact hb.free
  unfold LogStore.flush
  split
  · exact h
  · split
    · split
      · exact ⟨h.cnkMgr, h.master, h.cached, hb.aligned, hfree, hidle⟩
      · exact ⟨h.cnkMgr, h.master, h.cached, h.aligned, h.retiring, hidle⟩
    · exact ⟨h.cnkMgr, h.master, h.cached, hb.aligned, hfree, hidle⟩

theorem Inv.retire (h : s.Inv) {ids : List ℕ} (hids : s.retiring = some ids) :
    (s.retire ids).Inv := by
  have hcached : ∀ id bcid, (if id ∈ ids then none else s.cache id) = some bcid →
      id < s.cnkMgr.lastId := by
    intro id bcid heq
    split at heq
    · cases heq
    · exact h.cached id bcid heq
  have hidle : ∀ {p : Prop}, s.active = false → p := by
    intro p hidle
    rw [(h.idle hidle).2] at hids
    cases hids
  unfold LogStore.retire
  split
  · exact ⟨h.cnkMgr, h.master, hcached, h.aligned, fun _ heq => (by cases heq), hidle⟩
  · exact ⟨h.cnkMgr, h.cnkMgr, hcached, h.aligned, fun _ heq => (by cases heq), hidle⟩

theorem Inv.step {io : Bool} {a : Label} (h : s.Inv) (hstep : Step io s a t) : t.Inv := by
  cases hstep with
  | reload hactive =>
    obtain ⟨hcache, hretiring⟩ := h.idle hactive
    refine ⟨h.master, h.master, ?_, aligned_chunk _, ?_, fun heq => by cases heq⟩
    · intro id bcid heq
      rw [show s.reloadMaster.cache = s.cache from rfl, hcache] at heq
      cases heq
    · intro ids heq
      rw [show s.reloadMaster.retiring = s.retiring from rfl, hretiring] at heq
      cases heq
  | stop =>
    exact ⟨ChunkMgr.lockstep_zero _, h.master, fun _ _ heq => (by cases heq), Nat.zero_mod _,
      fun _ heq => (by cases heq), fun _ => ⟨rfl, rfl⟩⟩
  | reserveSpace hactive hflush hfree =>
    unfold LogStore.reserveSpace
    split
    · exact h.createChunk hactive _
    · exact h
  | append hactive => exact ⟨h.cnkMgr, h.master, h.cached, h.aligned, h.retiring, h.idle⟩
  | put hp hfind => exact ⟨h.cnkMgr, h.master, h.cached, h.aligned, h.retiring, h.idle⟩
  | flush hactive hflush hbatch hret =>
    obtain ⟨b', hb', hcollected⟩ := h.batch
    rw [hb'] at hbatch
    cases hbatch
    exact h.flush hactive io _ hcollected
  | retire hids hassert => exact h.retire hids

theorem inv_run {s₀ : LogStore} {bcid : ℕ} {io : Bool} {xs : List Label}
    (hrun : Run (Step io) (s₀.createMaster bcid) xs s) : s.Inv :=
  hrun.invariant (fun _ _ _ hstep h => h.step hstep) (inv_createMaster s₀ bcid)

/-- A flush that returns `true` has put every byte at its log position. -/
theorem Inv.flush_written (h : s.Inv) {ret : Option ℕ} {b : Batch} (hb : s.Collected s.writePos b)
    (hreturn : flushReturn true ret b = true) :
    (s.flush true ret b).writePos = s.writePos + b.estimatedSize ∧
    (s.flush true ret b).file = s.pwritev b.iov.reverse s.writePos b.estimatedSize := by
  have hne : b.iov ≠ [] := by
    rintro heq
    simp [flushReturn, heq] at hreturn
  have hret : ret = some b.estimatedSize := by
    simpa [flushReturn, hne] using hreturn
  unfold LogStore.flush
  rw [if_neg hne, if_pos rfl, if_pos hret]
  refine ⟨hb.writePos_eq, ?_⟩
  rw [h.writePhyOffset_eq hb hne]

theorem pwritev_cached {b : Batch} (hb : s.Collected s.writePos b) {q : ℕ} (hlo : s.writePos ≤ q)
    (hhi : q < s.writePos + b.estimatedSize) :
    ∃ bcid, s.cache (q / chunkSize) = some bcid ∧
      s.pwritev b.iov.reverse s.writePos b.estimatedSize q =
        s.mem (bcid * chunkSize + q % chunkSize) := by
  obtain ⟨j, rfl⟩ := Nat.exists_eq_add_of_le hlo
  obtain ⟨bcid, hfind, hbyte⟩ := hb.bytes j (by omega)
  refine ⟨bcid, hfind, ?_⟩
  rw [pwritev, if_pos ⟨hlo, hhi⟩, Nat.add_sub_cancel_left, hbyte]

theorem flush_failed {ret : Option ℕ} {b : Batch} (hret : ret ≠ some b.estimatedSize) :
    s.flush true ret b = { s with file := (s.flush true ret b).file } := by
  by_cases hne : b.iov = []
  · rw [LogStore.flush, if_pos hne]
  · rw [LogStore.flush, if_neg hne, if_pos rfl, if_neg hret]

theorem retire_file (ids : List ℕ) :
    (s.retire ids).file = s.file ∧ (s.retire ids).writePos = s.writePos := by
  unfold LogStore.retire
  split <;> exact ⟨rfl, rfl⟩

/-- In every session, a flush writes the cached bytes of its positions at the file offsets that are
those positions, with one write; after any other result only the file may have changed. -/
theorem flush_writes_positions {s₀ : LogStore} {bcid : ℕ} {io : Bool} {xs : List Label}
    (hrun : Run (Step io) (s₀.createMaster bcid) xs s) :
    s.writePos % flushUnit = 0 ∧ (∃ b, s.batch = some b) ∧
    (∀ ret t, Step io s (.flush ret) t → ∃ b, s.batch = some b ∧
      (io = true → flushReturn io ret b = true →
        t.writePos = s.writePos + b.estimatedSize ∧
        t.file = s.pwritev b.iov.reverse s.writePos b.estimatedSize ∧
        ∀ q, s.writePos ≤ q → q < t.writePos → ∃ bcid, s.cache (q / chunkSize) = some bcid ∧
          t.file q = s.mem (bcid * chunkSize + q % chunkSize)) ∧
      (io = true → ret ≠ some b.estimatedSize → t = { s with file := t.file })) ∧
    ∀ t, Step io s .retire t → t.file = s.file ∧ t.writePos = s.writePos := by
  have h := inv_run hrun
  obtain ⟨b, hbatch, hb⟩ := h.batch
  refine ⟨h.aligned, ⟨b, hbatch⟩, ?_, ?_⟩
  · intro ret t hstep
    cases hstep with
    | flush hactive hflush hbatch' hret =>
      rw [hbatch] at hbatch'
      cases hbatch'
      refine ⟨b, hbatch, ?_, ?_⟩
      · rintro rfl hreturn
        obtain ⟨hpos, hfile⟩ := h.flush_written hb hreturn
        refine ⟨hpos, hfile, ?_⟩
        intro q hlo hhi
        rw [hpos] at hhi
        rw [hfile]
        exact pwritev_cached hb hlo hhi
      · rintro rfl hne
        exact flush_failed hne
  · intro t hstep
    cases hstep with
    | retire hids hassert => exact retire_file _

/-- A log store before its master is created. -/
def blank : LogStore where
  cnkMgr := ⟨0, 0, fun _ => 0⟩
  pending := []
  cache := fun _ => none
  mem := fun _ => 0
  prepareLogCnkCnt := 0
  appendPos := 0
  writePos := 0
  retiring := none
  active := false
  master := ⟨0, 0, fun _ => 0⟩
  file := fun _ => 0
  flushed := []

/-- A record of one unit has been appended. -/
def oneUnit : LogStore :=
  ((blank.createMaster 0).append flushUnit).put ⟨chunkSize, flushUnit, 1⟩ 0 fun _ => 7

theorem oneUnit_run : Run (Step true) (blank.createMaster 0)
    [.append flushUnit, .put ⟨chunkSize, flushUnit, 1⟩ 0 fun _ => 7] oneUnit :=
  .stepL (.append rfl) (.stepL (.put (by decide +kernel) (by decide +kernel)) (.refl _))

def unitBatch : Batch := ⟨[(0, flushUnit)], [], flushUnit, chunkSize + flushUnit, some flushUnit⟩

theorem oneUnit_collect : oneUnit.collect (oneUnit.appendPos / flushUnit + 1 + 3)
    ⟨[], [], 0, oneUnit.writePos, none⟩ = oneUnit.batch := batch_eq_collect rfl 3

theorem oneUnit_batch : oneUnit.batch = some unitBatch := by decide +kernel

theorem oneUnit_flush : Step true oneUnit (.flush (some flushUnit))
    (oneUnit.flush true (some flushUnit) unitBatch) := by
  refine .flush rfl rfl oneUnit_batch ?_
  intro size heq
  cases heq
  exact Nat.le_refl _

theorem oneUnit_writes_positions :
    Run (Step true) (blank.createMaster 0)
      [.append flushUnit, .put ⟨chunkSize, flushUnit, 1⟩ 0 fun _ => 7] oneUnit ∧
    ∃ t, Step true oneUnit (.flush (some flushUnit)) t ∧
      t.writePos = chunkSize + flushUnit ∧ t.file chunkSize = 7 := by
  refine ⟨oneUnit_run, _, oneUnit_flush, ?_⟩
  obtain ⟨-, -, hflush, -⟩ := flush_writes_positions oneUnit_run
  obtain ⟨b, hb, hwritten, -⟩ := hflush (some flushUnit) _ oneUnit_flush
  rw [oneUnit_batch] at hb
  cases hb
  obtain ⟨hpos, -, hbytes⟩ := hwritten rfl rfl
  refine ⟨hpos, ?_⟩
  obtain ⟨bcid, hfind, hbyte⟩ := hbytes chunkSize (Nat.le_refl _) (by rw [hpos]; decide +kernel)
  have hcache : oneUnit.cache (chunkSize / chunkSize) = some 0 := by decide +kernel
  rw [hcache] at hfind
  cases hfind
  rw [hbyte]
  decide +kernel

end LogStore
end YwStorage.Log

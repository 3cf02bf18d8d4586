import YwStorage.Log.Flush

/-!
Where a new session begins to write. `reload_master` takes `last_id` from the master chunk, which is
written when a flush completes a chunk; what lies in chunks that the file does not know is lost.
-/
namespace YwStorage.Log
open Lts

namespace LogStore
variable {s t : LogStore} {io : Bool}

/-- A flush that succeeds writes no chunk that the master chunk of the file does not know. -/
def Covered (s : LogStore) : Label → Prop
  | .flush ret => ∀ b, s.batch = some b → ret = some b.estimatedSize →
    b.writePos ≤ s.master.lastId * chunkSize
  | _ => True

/-- What has been flushed lies below `write_pos` and in chunks that the file knows. -/
structure Recoverable (s : LogStore) : Prop where
  inv : s.Inv
  known : ∀ e ∈ s.flushed, e ≤ s.master.lastId * chunkSize
  below : s.active = true → ∀ e ∈ s.flushed, e ≤ s.writePos
  master : s.active = true → s.master.lastId ≤ s.cnkMgr.lastId

theorem createChunk_keeps (s : LogStore) (bcid : ℕ) :
    (s.createChunk bcid).flushed = s.flushed ∧ (s.createChunk bcid).writePos = s.writePos ∧
    (s.createChunk bcid).master = s.master ∧
    s.cnkMgr.lastId ≤ (s.createChunk bcid).cnkMgr.lastId := by
  rcases s.createChunk_cases bcid with heq | ⟨heq, hlast⟩
  · rw [heq]
    exact ⟨rfl, rfl, rfl, Nat.le_refl _⟩
  · rw [heq]
    refine ⟨rfl, rfl, rfl, ?_⟩
    show s.cnkMgr.lastId ≤ s.cnkMgr.allocChunk.2.lastId
    rw [hlast]
    exact Nat.le_succ _

theorem recoverable_createMaster (hflushed : s.flushed = []) (bcid : ℕ) :
    (s.createMaster bcid).Recoverable := by
  have hnil : (s.createMaster bcid).flushed = [] := hflushed
  have hnone : ∀ n, ∀ e ∈ (s.createMaster bcid).flushed, e ≤ n := by
    rw [hnil]
    intro n e he
    cases he
  exact ⟨inv_createMaster s bcid, hnone _, fun _ => hnone _, fun _ => Nat.le_refl _⟩

theorem Recoverable.flush (h : s.Recoverable) (hactive : s.active = true) {ret : Option ℕ}
    {b : Batch} (hbatch : s.batch = some b) (hb : s.Collected s.writePos b)
    (hcovered : s.Covered (.flush ret)) : (s.flush io ret b).Recoverable := by
  have hinv := h.inv.flush hactive io ret hb
  have hpos : ∀ e ∈ s.flushed, e ≤ b.writePos := by
    intro e he
    rw [hb.writePos_eq]
    exact Nat.le_add_right_of_le (h.below hactive e he)
  unfold LogStore.flush at hinv ⊢
  split at hinv
  · rename_i hnil
    rw [if_pos hnil]
    exact h
  rename_i hne
  rw [if_neg hne]
  split at hinv
  · rename_i hio
    rw [if_pos hio]
    split at hinv
    · rename_i hret
      rw [if_pos hret]
      refine ⟨hinv, ?_, ?_, h.master⟩
      · exact List.forall_mem_cons.mpr ⟨hcovered b hbatch hret, h.known⟩
      · exact fun _ => List.forall_mem_cons.mpr ⟨Nat.le_refl _, hpos⟩
    · rename_i hret
      rw [if_neg hret]
      exact ⟨hinv, h.known, h.below, h.master⟩
  · rename_i hio
    rw [if_neg hio]
    exact ⟨hinv, h.known, fun _ => hpos, h.master⟩

theorem Recoverable.retire (h : s.Recoverable) {ids : List ℕ} (hids : s.retiring = some ids) :
    (s.retire ids).Recoverable := by
  have hinv := h.inv.retire hids
  have hactive : s.active = true := by
    by_contra hidle
    rw [(h.inv.idle (Bool.eq_false_of_not_eq_true hidle)).2] at hids
    cases hids
  unfold LogStore.retire at hinv ⊢
  by_cases hnil : ids = []
  · rw [if_pos hnil] at hinv ⊢
    exact ⟨hinv, h.known, h.below, h.master⟩
  · rw [if_neg hnil] at hinv ⊢
    refine ⟨hinv, ?_, h.below, fun _ => Nat.le_refl _⟩
    intro e he
    exact Nat.le_trans (h.known e he) (Nat.mul_le_mul_right _ (h.master hactive))

theorem Recoverable.step {a : Label} (h : s.Recoverable)
    (hstep : restrict (Step io) Covered s a t) : t.Recoverable := by
  obtain ⟨hstep, hcovered⟩ := hstep
  have hinv := h.inv.step hstep
  cases hstep with
  | reload hactive => exact ⟨hinv, h.known, fun _ => h.known, fun _ => Nat.le_refl _⟩
  | stop => exact ⟨hinv, h.known, fun heq => (by cases heq), fun heq => (by cases heq)⟩
  | @reserveSpace bcid hactive hflush hfree =>
    unfold LogStore.reserveSpace at hinv ⊢
    split at hinv
    · rename_i hprepare
      obtain ⟨hflushed, hpos, hmaster, hlast⟩ := s.createChunk_keeps bcid
      rw [if_pos hprepare]
      refine ⟨hinv, ?_, fun _ => ?_, fun _ => ?_⟩
      · rw [hflushed, hmaster]
        exact h.known
      · rw [hflushed, hpos]
        exact h.below hactive
      · rw [hmaster]
        exact Nat.le_trans (h.master hactive) hlast
    · rename_i hprepare
      rw [if_neg hprepare]
      exact h
  | append hactive => exact ⟨hinv, h.known, h.below, h.master⟩
  | put hp hfind => exact ⟨hinv, h.known, h.below, h.master⟩
  | flush hactive hflush hbatch hret =>
    obtain ⟨b', hb', hcollected⟩ := h.inv.batch
    rw [hb'] at hbatch
    cases hbatch
    exact h.flush hactive hb' hcollected hcovered
  | retire hids hassert => exact h.retire hids

theorem Inv.flush_below (h : s.Inv) {ret : Option ℕ} {b : Batch} (hb : s.Collected s.writePos b)
    {q : ℕ} (hq : q < s.writePos) : (s.flush io ret b).file q = s.file q := by
  by_cases hne : b.iov = []
  · rw [LogStore.flush, if_pos hne]
  have hwrite : ∀ size, s.pwritev b.iov.reverse s.writePhyOffset size q = s.file q := by
    intro size
    rw [pwritev, h.writePhyOffset_eq hb hne, if_neg (by omega)]
  rw [LogStore.flush, if_neg hne]
  split
  · split
    · exact hwrite _
    · exact hwrite _
  · rfl

/-- While every successful flush stays in chunks that the master chunk knows, a reload starts behind
everything flushed before it, and no flush writes below the end of an earlier one. -/
theorem reload_behind_flushed {s₀ : LogStore} {bcid : ℕ} {xs : List Label}
    (hnew : s₀.flushed = [])
    (hrun : Run (restrict (Step io) Covered) (s₀.createMaster bcid) xs s) :
    (∀ t, Step io s .reload t → ∀ e ∈ s.flushed, e ≤ t.appendPos) ∧
    ∀ ret t, Step io s (.flush ret) t → ∀ e ∈ s.flushed, ∀ q, q < e → t.file q = s.file q := by
  have h : s.Recoverable :=
    hrun.invariant (fun _ _ _ hstep h => h.step hstep) (recoverable_createMaster hnew bcid)
  constructor
  · intro t hstep
    cases hstep with
    | reload hactive => exact h.known
  · intro ret t hstep e he q hq
    cases hstep with
    | flush hactive hflush hbatch hret =>
      obtain ⟨b', hb', hcollected⟩ := h.inv.batch
      rw [hb'] at hbatch
      cases hbatch
      exact h.inv.flush_below hcollected (Nat.lt_of_lt_of_le hq (h.below hactive e he))

/-- The first session ends after its flush. -/
def oneSession : LogStore :=
  (oneUnit.flush true (some flushUnit) unitBatch).restart ⟨0, 0, oneUnit.cnkMgr.pLoc⟩

def oneSessionLabels : List Label :=
  [.append flushUnit, .put ⟨chunkSize, flushUnit, 1⟩ 0 fun _ => 7, .flush (some flushUnit), .stop]

theorem oneSession_run :
    Run (restrict (Step true) Covered) (blank.createMaster 0) oneSessionLabels oneSession := by
  refine .stepL ⟨.append rfl, trivial⟩ (.stepL ⟨.put ?_ ?_, trivial⟩
    (.stepL ⟨oneUnit_flush, ?_⟩ (.stepL ⟨.stop, trivial⟩ (.refl _))))
  · decide +kernel
  · decide +kernel
  · intro b hb _
    have heq : some b = some unitBatch := hb.symm.trans oneUnit_batch
    cases heq
    decide +kernel

theorem oneSession_behind : Run (restrict (Step true) Covered) (blank.createMaster 0)
      oneSessionLabels oneSession ∧ Step true oneSession .reload oneSession.reloadMaster ∧
    chunkSize + flushUnit ∈ oneSession.flushed ∧
    chunkSize + flushUnit ≤ oneSession.reloadMaster.appendPos := by
  have hreload : Step true oneSession .reload oneSession.reloadMaster := .reload rfl
  have hmem : chunkSize + flushUnit ∈ oneSession.flushed := List.mem_singleton.mpr rfl
  exact ⟨oneSession_run, hreload, hmem,
    (reload_behind_flushed rfl oneSession_run).1 _ hreload _ hmem⟩

/-- In the second session a record is appended to a new chunk. -/
def secondSession : LogStore :=
  let s := ((blank.createMaster 0).restart ⟨0, 0, (blank.createMaster 0).cnkMgr.pLoc⟩).reloadMaster
  ((s.reserveSpace 0).append flushUnit).put ⟨2 * chunkSize, flushUnit, 2⟩ 0 fun _ => 7

def secondBatch : Batch :=
  ⟨[(0, flushUnit)], [], flushUnit, 2 * chunkSize + flushUnit, some flushUnit⟩

theorem secondSession_batch : secondSession.batch = some secondBatch := by decide +kernel

/-- The chunk of the record is not entered in the master chunk, and the third session begins where
the record is. -/
theorem unknownChunk_reused : ∃ xs s, Run (Step true) (blank.createMaster 0) xs s ∧
    s.active = true ∧ s.appendPos = 2 * chunkSize ∧ 2 * chunkSize + flushUnit ∈ s.flushed := by
  have hstart : Run (Step true) (blank.createMaster 0) [.stop, .reload, .reserveSpace 0,
      .append flushUnit, .put ⟨2 * chunkSize, flushUnit, 2⟩ 0 fun _ => 7] secondSession := by
    refine .stepL .stop (.stepL (.reload rfl) (.stepL (.reserveSpace rfl rfl ?_)
      (.stepL (.append rfl) (.stepL (.put ?_ ?_) (.refl _)))))
    · intro id heq
      cases heq
    · decide +kernel
    · decide +kernel
  have hflush : Step true secondSession (.flush (some flushUnit))
      (secondSession.flush true (some flushUnit) secondBatch) := by
    refine .flush (by decide +kernel) (by decide +kernel) secondSession_batch ?_
    intro size heq
    cases heq
    exact Nat.le_refl _
  refine ⟨_, _, hstart.append (.stepL hflush (.stepL .stop (.stepL (.reload rfl) (.refl _)))), rfl,
    ?_, ?_⟩
  · decide +kernel
  · decide +kernel

end LogStore
end YwStorage.Log

import YwStorage.RcuPool.Basic
import YwStorage.RcuRef.Rings

/-! The waiting objects under the operations of `ywRcuRef`. -/
namespace YwStorage.RcuPool
open Pool RcuRef

variable {n : ℕ} {α : Type} {s t : Rcu n α} {i : Fin n}

/-- The rings are the same, but for a new one that has the objects of the slot's own ring. -/
def Kept (i : Fin n) (s t : Rcu n α) : Prop :=
  ((rings i t).Perm (rings i s) ∧ (t.slot i).latestRing.items = (s.slot i).latestRing.items) ∨
  ((rings i t).Perm (⟨(s.slot i).latestRing.items, s.globalTime⟩ :: rings i s) ∧
    (t.slot i).latestRing.items = [])

theorem Kept.waiting (h : Kept i s t) : (waiting i t).Perm (waiting i s) := by
  unfold RcuPool.waiting
  rcases h with ⟨hrings, hlatest⟩ | ⟨hrings, hlatest⟩
  · rw [hlatest]
    exact (hrings.flatMap_right _).append_right _
  · rw [hlatest, List.append_nil]
    refine (hrings.flatMap_right _).trans ?_
    rw [List.flatMap_cons]
    exact List.perm_append_comm

/-- No ring is younger than the clock. -/
def Dated (i : Fin n) (s : Rcu n α) : Prop := ∀ r ∈ rings i s, r.removeTime ≤ s.globalTime

theorem Kept.dated (h : Kept i s t) (hglobal : s.globalTime ≤ t.globalTime) (hdated : Dated i s) :
    Dated i t := by
  intro r hr
  rcases h with ⟨hrings, -⟩ | ⟨hrings, -⟩
  · exact Nat.le_trans (hdated r (hrings.mem_iff.mp hr)) hglobal
  · rcases List.mem_cons.mp (hrings.mem_iff.mp hr) with rfl | hr
    · exact hglobal
    · exact Nat.le_trans (hdated r hr) hglobal

theorem kept_changeRing (s : Rcu n α) (i : Fin n) : Kept i s (s.changeRing i) := by
  by_cases hne : (s.slot i).latestRing.items = []
  · rw [s.changeRing_nil i hne]
    exact .inl ⟨.refl _, rfl⟩
  · rw [s.changeRing_of_ne i hne]
    have hslot : (s.setSlot i { s.slot i with latestRing := initRing }).slot i =
      { s.slot i with latestRing := initRing } := s.slot_setSlot_self ..
    refine .inr ⟨?_, ?_⟩
    · have hpush : (reach (ringPool n) (pushed (ringPool n) s.freeRingPool i
          ⟨(s.slot i).latestRing.items, s.globalTime⟩) i).Perm
          (⟨(s.slot i).latestRing.items, s.globalTime⟩ :: reach (ringPool n) s.freeRingPool i) :=
        reach_pushed (shared_ne i) _
      unfold rings
      rw [hslot]
      exact (hpush.append_left _).trans List.perm_middle
    · show ((s.setSlot i { s.slot i with latestRing := initRing }).slot i).latestRing.items = []
      rw [hslot]
      rfl

theorem latest_changeRing (s : Rcu n α) (i : Fin n) :
    ((s.changeRing i).slot i).latestRing.items = [] := by
  by_cases hne : (s.slot i).latestRing.items = []
  · rw [s.changeRing_nil i hne, hne]
  · rw [s.changeRing_of_ne i hne]
    show ((s.setSlot i { s.slot i with latestRing := initRing }).slot i).latestRing.items = []
    rw [s.slot_setSlot_self]
    rfl

theorem rings_takeRing (h : (s.slot i).oldestRing = none) :
    (rings i ((s.popRing i).2.setOldest i (s.popRing i).1)).Perm (rings i s) := by
  have hpop : (reach (ringPool n) s.freeRingPool i).Perm ((s.popRing i).1.toList ++
      reach (ringPool n) (s.popRing i).2.freeRingPool i) := reach_popped (shared_ne i)
  unfold rings
  rw [slot_setOldest, h]
  exact hpop.symm

/-- Rings that change places do not matter. -/
theorem Kept.congr {s' t' : Rcu n α} (h : Kept i s t) (hs : (rings i s).Perm (rings i s'))
    (hslot : s.slot i = s'.slot i) (hglobal : s.globalTime = s'.globalTime)
    (ht : (rings i t').Perm (rings i t))
    (hlatest : (t'.slot i).latestRing.items = (t.slot i).latestRing.items) : Kept i s' t' := by
  unfold Kept at h ⊢
  rw [hlatest, ← hslot, ← hglobal]
  rcases h with ⟨hrings, heq⟩ | ⟨hrings, heq⟩
  · exact .inl ⟨(ht.trans hrings).trans hs, heq⟩
  · exact .inr ⟨(ht.trans hrings).trans (hs.cons _), heq⟩

/-- `nextRing` adds nothing but the slot's own ring. -/
theorem kept_nextRing (s : Rcu n α) (i : Fin n) : Kept i s (s.nextRing i) := by
  unfold Rcu.nextRing
  split
  · exact .inl ⟨.refl _, rfl⟩
  · rename_i hnone
    have htake := rings_takeRing (s := s) hnone
    split
    · rename_i r t heq
      have hslot : t.slot = s.slot := congrArg (fun r => r.2.slot) heq.symm
      rw [heq] at htake
      refine .inl ⟨htake, ?_⟩
      rw [slot_setOldest, hslot]
    · rename_i t heq
      have hslot : t.slot = s.slot := congrArg (fun r => r.2.slot) heq.symm
      have hglobal : t.globalTime = s.globalTime := congrArg (fun r => r.2.globalTime) heq.symm
      have hrings : (rings i t).Perm (rings i s) := by
        rw [heq] at htake
        have hsame : rings i (t.setOldest i none) = rings i t := by
          unfold rings
          rw [slot_setOldest, hslot, hnone]
          rfl
        rwa [hsame] at htake
      have hnone' : ((t.changeRing i).slot i).oldestRing = none := by
        rw [oldest_changeRing, hslot, hnone]
      refine (kept_changeRing t i).congr hrings (by rw [hslot]) hglobal (rings_takeRing hnone') ?_
      rw [slot_setOldest]
      rfl

theorem rings_setOldest (s : Rcu n α) (i : Fin n) (r : Option (RcuRef.FreeRing α)) :
    rings i (s.setOldest i r) = r.toList ++ reach (ringPool n) s.freeRingPool i := by
  rw [rings, slot_setOldest]
  rfl

theorem waiting_setOldest (s : Rcu n α) (i : Fin n) (r : Option (RcuRef.FreeRing α)) :
    waiting i (s.setOldest i r) =
      (r.toList ++ reach (ringPool n) s.freeRingPool i).flatMap RcuRef.FreeRing.items ++
        (s.slot i).latestRing.items := by
  rw [waiting, rings_setOldest, slot_setOldest]

/-- The object that `get_reusable_item` returns no longer waits, all others still do. -/
theorem reuseLoop_spec {fuel : ℕ} {ret : Option α} (h : s.reuseLoop i fuel = some (ret, t))
    (hdated : Dated i s) : (waiting i s).Perm (ret.toList ++ waiting i t) ∧ Dated i t := by
  induction fuel generalizing s with
  | zero => cases h
  | succ fuel ih =>
    have hkept := kept_nextRing s i
    have hglobal := (follows_nextRing s i).globalTime
    have hnext := hkept.dated (Nat.le_of_eq hglobal.symm) hdated
    rw [Rcu.reuseLoop] at h
    split at h
    · cases h
      exact ⟨hkept.waiting.symm, hnext⟩
    · rename_i r hr
      split at h
      · split at h
        · rename_i x items hitems
          cases h
          constructor
          · refine hkept.waiting.symm.trans ?_
            rw [waiting_setOldest, waiting, rings, hr]
            simp [hitems]
          · intro r' hr'
            rw [rings_setOldest] at hr'
            rcases List.mem_cons.mp hr' with rfl | hr'
            · exact hnext r (by rw [rings, hr]; exact List.mem_cons_self)
            · exact hnext r' (by rw [rings]; exact List.mem_append_right _ hr')
        · rename_i hitems
          have hwaiting : (waiting i s).Perm (waiting i ((s.nextRing i).setOldest i none)) := by
            refine hkept.waiting.symm.trans ?_
            rw [waiting_setOldest, waiting, rings, hr]
            simp [hitems]
          obtain ⟨hperm, hdated'⟩ := ih h (fun r' hr' => hnext r' (by
            rw [rings_setOldest] at hr'
            rw [rings]
            exact List.mem_append_right _ hr'))
          exact ⟨hwaiting.trans hperm, hdated'⟩
      · cases h
        exact ⟨hkept.waiting.symm, hnext⟩

/-- The slot's rings and the pool are not touched. -/
theorem waiting_congr (hold : (t.slot i).oldestRing = (s.slot i).oldestRing)
    (hlatest : (t.slot i).latestRing = (s.slot i).latestRing)
    (hpool : t.freeRingPool = s.freeRingPool) :
    rings i t = rings i s ∧ waiting i t = waiting i s := by
  have hrings : rings i t = rings i s := by rw [rings, rings, hold, hpool]
  exact ⟨hrings, by rw [waiting, waiting, hrings, hlatest]⟩

theorem registFreeObj_waiting (s : Rcu n α) (i : Fin n) (o : α) :
    (waiting i (s.registFreeObj i o)).Perm (o :: waiting i s) ∧
      (Dated i s → Dated i (s.registFreeObj i o)) := by
  have hglobal := (registFreeObj_spec s i o).1
  have hkept : ∃ u, s.registFreeObj i o = u.setSlot i { u.slot i with
      latestRing := { (u.slot i).latestRing with items := o :: (u.slot i).latestRing.items } } ∧
      Kept i s u := by
    unfold Rcu.registFreeObj
    split
    · exact ⟨_, rfl, kept_changeRing s i⟩
    · exact ⟨s, rfl, .inl ⟨.refl _, rfl⟩⟩
  obtain ⟨u, heq, hkept⟩ := hkept
  have hslot : (s.registFreeObj i o).slot i = { u.slot i with
      latestRing := { (u.slot i).latestRing with items := o :: (u.slot i).latestRing.items } } := by
    rw [heq, u.slot_setSlot_self]
  have hrings : rings i (s.registFreeObj i o) = rings i u := by
    rw [rings, rings, hslot, heq]
    rfl
  constructor
  · rw [waiting, hrings, hslot]
    exact List.perm_middle.trans (hkept.waiting.cons o)
  · intro hdated r hr
    rw [hrings] at hr
    rw [hglobal]
    rcases hkept with ⟨hperm, -⟩ | ⟨hperm, -⟩
    · exact hdated r (hperm.mem_iff.mp hr)
    · rcases List.mem_cons.mp (hperm.mem_iff.mp hr) with rfl | hr
      · exact Nat.le_refl _
      · exact hdated r hr

theorem lock_globalTime (h : s.globalTime % 2 = 0) : s.lock.globalTime = s.globalTime + 1 := by
  have hodd := Nat.two_pow_add_eq_or_of_lt (i := 1) (b := 1) (by decide) (s.globalTime / 2)
  have heven : 2 ^ 1 * (s.globalTime / 2) = s.globalTime := by omega
  rw [heven] at hodd
  exact hodd.symm

theorem updateReusableTime_spec (s : Rcu n α) :
    s.updateReusableTime.slot = s.slot ∧ s.updateReusableTime.freeRingPool = s.freeRingPool ∧
    (s.globalTime % 2 = 0 → s.updateReusableTime.globalTime = s.globalTime + 2) := by
  unfold Rcu.updateReusableTime
  split
  · rename_i heven
    refine ⟨rfl, rfl, fun _ => ?_⟩
    show s.lock.globalTime + 1 = s.globalTime + 2
    rw [lock_globalTime heven]
  · rename_i hodd
    exact ⟨rfl, rfl, fun h => absurd h hodd⟩

/-- Without readers, everything removed up to now becomes reusable. -/
theorem updateReusableTime_idle (heven : s.globalTime % 2 = 0)
    (hidle : ∀ k, (s.slot k).fixtime = 0) :
    s.updateReusableTime.reusableTime = s.globalTime + 1 := by
  have hscan : ∀ (l : List (Fin n)) cur,
      l.foldl (fun cur k => s.lock.scanSlot k cur) cur = cur := by
    intro l cur
    induction l with
    | nil => rfl
    | cons k l ih =>
      rw [List.foldl_cons]
      have hslot : s.lock.scanSlot k cur = cur := if_neg fun h => h.1 (hidle k)
      rw [hslot, ih]
  unfold Rcu.updateReusableTime
  rw [if_pos heven]
  show (List.finRange n).foldl (fun cur k => s.lock.scanSlot k cur) s.lock.globalTime = _
  rw [hscan, lock_globalTime heven]

theorem kept_aging (s : Rcu n α) (i : Fin n) : Kept i s (s.aging i) := by
  obtain ⟨hslot, hpool, -⟩ := updateReusableTime_spec (s.changeRing i)
  have hmove : (reach (ringPool n) (s.aging i).freeRingPool i).Perm
      (reach (ringPool n) (s.changeRing i).freeRingPool i) := by
    rw [← hpool]
    exact reach_toShared (shared_ne i) _
  have haging : (s.aging i).slot = (s.changeRing i).slot := hslot
  refine (kept_changeRing s i).congr (.refl _) rfl rfl ?_ ?_
  · rw [rings, rings, haging]
    exact hmove.append_left _
  · rw [haging]

/-- Nothing is left in the slot's own ring, and all other rings may be reused. -/
structure Drainable (i : Fin n) (s : Rcu n α) : Prop where
  latest : (s.slot i).latestRing.items = []
  reusable : ∀ r ∈ rings i s, r.removeTime < s.reusableTime

theorem drainable_aging (heven : s.globalTime % 2 = 0) (hidle : ∀ k, (s.slot k).fixtime = 0)
    (hdated : Dated i s) : Drainable i (s.aging i) := by
  have hfollows := follows_changeRing s i
  have hkept := kept_aging s i
  have hreusable : (s.aging i).reusableTime = s.globalTime + 1 := by
    rw [← hfollows.globalTime]
    refine updateReusableTime_idle ?_ fun k => (hfollows.fixtime k).trans (hidle k)
    rw [hfollows.globalTime, heven]
  have hlatest : ((s.aging i).slot i).latestRing.items = [] := by
    have hslot : (s.aging i).slot = (s.changeRing i).slot := (updateReusableTime_spec _).1
    rw [hslot]
    exact latest_changeRing s i
  refine ⟨hlatest, fun r hr => ?_⟩
  rw [hreusable]
  refine Nat.lt_succ_of_le ?_
  rcases hkept with ⟨hrings, -⟩ | ⟨hrings, -⟩
  · exact hdated r (hrings.mem_iff.mp hr)
  · rcases List.mem_cons.mp (hrings.mem_iff.mp hr) with rfl | hr
    · exact Nat.le_refl _
    · exact hdated r hr

/-- With nothing in the slot's own ring, the rings stay the same ones. -/
theorem rings_nextRing (hlatest : (s.slot i).latestRing.items = []) :
    (rings i (s.nextRing i)).Perm (rings i s) ∧
      ((s.nextRing i).slot i).latestRing.items = [] ∧
      (((s.nextRing i).slot i).oldestRing = none → rings i s = []) := by
  unfold Rcu.nextRing
  split
  · rename_i r hr
    refine ⟨.refl _, hlatest, fun hnone => ?_⟩
    rw [hr] at hnone
    cases hnone
  · rename_i hnone
    have htake := rings_takeRing (s := s) hnone
    split
    · rename_i r t heq
      have hslot : t.slot = s.slot := congrArg (fun r => r.2.slot) heq.symm
      rw [heq] at htake
      rw [slot_setOldest, hslot]
      exact ⟨htake, hlatest, fun h => by cases h⟩
    · rename_i t heq
      have hslot : t.slot = s.slot := congrArg (fun r => r.2.slot) heq.symm
      have hpopped : (popped (ringPool n) s.freeRingPool i).1 = none := congrArg Prod.fst heq
      obtain ⟨hprivate, hshared⟩ := (popped_fst i.isLt fun h => (by cases h)).mp hpopped
      have hnil : rings i s = [] := by
        rw [rings, hnone, reach, hprivate, hshared]
        rfl
      have hnone' : (t.slot i).oldestRing = none := by rw [hslot, hnone]
      have hlatest' : (t.slot i).latestRing.items = [] := by rw [hslot, hlatest]
      have htake' := rings_takeRing (s := t) hnone'
      have hsame : rings i (t.setOldest i none) = rings i t := by
        unfold rings
        rw [slot_setOldest, hslot, hnone]
        rfl
      rw [heq, hsame] at htake
      rw [t.changeRing_nil i hlatest', slot_setOldest]
      exact ⟨htake'.trans htake, hlatest', fun _ => hnil⟩

theorem nextRing_drains (hdrain : Drainable i s) : Drainable i (s.nextRing i) ∧
    (((s.nextRing i).slot i).oldestRing = none → rings i (s.nextRing i) = []) := by
  obtain ⟨hrings, hlatest, hempty⟩ := rings_nextRing hdrain.latest
  refine ⟨⟨hlatest, fun r hr => ?_⟩, fun hnone => ?_⟩
  · rw [(follows_nextRing s i).reusableTime]
    exact hdrain.reusable r (hrings.mem_iff.mp hr)
  · have hnil := hempty hnone
    rw [hnil] at hrings
    exact hrings.eq_nil

/-- A drainable state is drained object by object, and `NULL` means that nothing waits. -/
theorem reuseLoop_drains {fuel : ℕ} {ret : Option α} (h : s.reuseLoop i fuel = some (ret, t))
    (hdrain : Drainable i s) : Drainable i t ∧ (ret = none → waiting i t = []) := by
  induction fuel generalizing s with
  | zero => cases h
  | succ fuel ih =>
    obtain ⟨hnext, hempty⟩ := nextRing_drains hdrain
    rw [Rcu.reuseLoop] at h
    split at h
    · rename_i hnone
      cases h
      refine ⟨hnext, fun _ => ?_⟩
      rw [waiting, hempty hnone, hnext.latest]
      rfl
    · rename_i r hr
      have hmem : r ∈ rings i (s.nextRing i) := by
        rw [rings, hr]
        exact List.mem_cons_self
      have htail : ∀ r' ∈ reach (ringPool n) (s.nextRing i).freeRingPool i,
          r'.removeTime < (s.nextRing i).reusableTime := fun r' hr' =>
        hnext.reusable r' (List.mem_append_right _ hr')
      have hre : (s.nextRing i).isReusable r = true := decide_eq_true (hnext.reusable r hmem)
      rw [if_pos hre] at h
      split at h
      · rename_i x items hitems
        cases h
        refine ⟨⟨?_, ?_⟩, fun heq => by cases heq⟩
        · rw [slot_setOldest]
          exact hnext.latest
        · intro r' hr'
          rw [rings_setOldest] at hr'
          rcases List.mem_cons.mp hr' with rfl | hr'
          · exact hnext.reusable r hmem
          · exact htail r' hr'
      · refine ih h ⟨?_, ?_⟩
        · rw [slot_setOldest]
          exact hnext.latest
        · intro r' hr'
          rw [rings_setOldest] at hr'
          exact htail r' hr'

end YwStorage.RcuPool

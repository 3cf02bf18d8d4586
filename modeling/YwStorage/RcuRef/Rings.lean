import YwStorage.RcuRef.Basic

/-! Where the rings of a state come from. -/
namespace YwStorage.RcuRef
open Pool

variable {n : ℕ} {α : Type}

namespace Rcu
variable (s : Rcu n α)

/-- A ring in the pool or in use by a thread. -/
def Ring (r : FreeRing α) : Prop :=
  (∃ k, r ∈ s.freeRingPool k) ∨ ∃ i, (s.slot i).oldestRing = some r

/-- The object waits in a ring that has its removal time. -/
def Removed (o : α) (time : ℕ) : Prop := ∃ r, s.Ring r ∧ o ∈ r.items ∧ r.removeTime = time

/-- The object waits in the ring of a slot. -/
def Latest (o : α) : Prop := ∃ i, o ∈ (s.slot i).latestRing.items

end Rcu

variable {s t u : Rcu n α} {i : Fin n} {o : α}

/-- `t` has the rings of `s` or parts of them, and new ones with the present clock. -/
structure Follows (s t : Rcu n α) : Prop where
  globalTime : t.globalTime = s.globalTime
  reusableTime : t.reusableTime = s.reusableTime
  fixtime : ∀ i, (t.slot i).fixtime = (s.slot i).fixtime
  ref : ∀ i, (t.slot i).ref = (s.slot i).ref
  latest : ∀ o, t.Latest o → s.Latest o
  removed : ∀ o time, t.Removed o time → s.Removed o time ∨ (time = s.globalTime ∧ s.Latest o)

theorem Follows.refl (s : Rcu n α) : Follows s s :=
  ⟨rfl, rfl, fun _ => rfl, fun _ => rfl, fun _ h => h, fun _ _ h => .inl h⟩

/-- Where an object waits in `t` leads back to `s`. -/
theorem Follows.origin (h : Follows s t) {time : ℕ}
    (ho : t.Removed o time ∨ (time = t.globalTime ∧ t.Latest o)) :
    s.Removed o time ∨ (time = s.globalTime ∧ s.Latest o) := by
  rcases ho with ho | ⟨htime, ho⟩
  · exact h.removed o time ho
  · exact .inr ⟨htime.trans h.globalTime, h.latest o ho⟩

theorem Follows.trans (h : Follows s t) (h' : Follows t u) : Follows s u := by
  refine ⟨h'.globalTime.trans h.globalTime, h'.reusableTime.trans h.reusableTime,
    fun i => (h'.fixtime i).trans (h.fixtime i), fun i => (h'.ref i).trans (h.ref i),
    fun o ho => h.latest o (h'.latest o ho), fun o time ho => h.origin (h'.removed o time ho)⟩

theorem shared_ne (i : Fin n) : i.val ≠ (ringPool n).sharedIdx := Nat.ne_of_lt i.isLt

/-- One slot is written, and the pool has rings of `s` and new ones. -/
theorem follows_of {x : Slot α} (hglobal : t.globalTime = s.globalTime)
    (hreusable : t.reusableTime = s.reusableTime) (hslot : t.slot = Function.update s.slot i x)
    (hfixtime : x.fixtime = (s.slot i).fixtime) (href : x.ref = (s.slot i).ref)
    (hlatest : ∀ o ∈ x.latestRing.items, s.Latest o)
    (hold : ∀ r, x.oldestRing = some r → ∀ o ∈ r.items, s.Removed o r.removeTime)
    (hpool : ∀ r, (∃ k, r ∈ t.freeRingPool k) → ∀ o ∈ r.items,
      s.Removed o r.removeTime ∨ (r.removeTime = s.globalTime ∧ s.Latest o)) : Follows s t := by
  have hself : t.slot i = x := by rw [hslot, Function.update_self]
  have hother : ∀ j, j ≠ i → t.slot j = s.slot j := fun j hj => by
    rw [hslot, Function.update_of_ne hj]
  refine ⟨hglobal, hreusable, fun j => ?_, fun j => ?_, ?_, ?_⟩
  · by_cases hj : j = i
    · rw [hj, hself, hfixtime]
    · rw [hother j hj]
  · by_cases hj : j = i
    · rw [hj, hself, href]
    · rw [hother j hj]
  · rintro o ⟨j, ho⟩
    by_cases hj : j = i
    · rw [hj, hself] at ho
      exact hlatest o ho
    · rw [hother j hj] at ho
      exact ⟨j, ho⟩
  · rintro o _ ⟨r, hr | ⟨j, hr⟩, ho, rfl⟩
    · exact hpool r hr o ho
    · by_cases hj : j = i
      · rw [hj, hself] at hr
        exact .inl (hold r hr o ho)
      · rw [hother j hj] at hr
        exact .inl ⟨r, .inr ⟨j, hr⟩, ho, rfl⟩

theorem removed_oldest {r : FreeRing α} (h : (s.slot i).oldestRing = some r) :
    ∀ o ∈ r.items, s.Removed o r.removeTime := fun _ ho => ⟨r, .inr ⟨i, h⟩, ho, rfl⟩

/-- A ring of `s` may become the oldest ring of a slot, or a part of one. -/
theorem follows_setOldest (s : Rcu n α) (i : Fin n) {r : Option (FreeRing α)}
    (hr : ∀ r', r = some r' → ∀ o ∈ r'.items, s.Removed o r'.removeTime) :
    Follows s (s.setOldest i r) :=
  follows_of rfl rfl rfl rfl rfl (fun _ ho => ⟨i, ho⟩) hr
    fun r' hpool _ ho => .inl ⟨r', .inl hpool, ho, rfl⟩

theorem follows_changeRing (s : Rcu n α) (i : Fin n) : Follows s (s.changeRing i) := by
  unfold Rcu.changeRing
  split
  · exact .refl s
  · rename_i items hitems
    refine follows_of rfl rfl rfl rfl rfl (fun _ ho => (by cases ho)) (fun r => removed_oldest) ?_
    intro r hpool o ho
    rcases (exists_mem_pushed (shared_ne i)).mp hpool with rfl | hpool
    · exact .inr ⟨rfl, i, ho⟩
    · exact .inl ⟨r, .inl hpool, ho, rfl⟩

theorem follows_popRing (s : Rcu n α) (i : Fin n) : Follows s (s.popRing i).2 := by
  refine follows_of rfl rfl (Function.update_eq_self i s.slot).symm rfl rfl
    (fun _ ho => ⟨i, ho⟩) (fun r => removed_oldest) ?_
  rintro r ⟨k, hk⟩ o ho
  exact .inl ⟨r, .inl (mem_of_mem_popped (shared_ne i) hk), ho, rfl⟩

/-- The popped ring becomes the oldest ring. -/
theorem follows_takeRing (s : Rcu n α) (i : Fin n) :
    Follows s ((s.popRing i).2.setOldest i (s.popRing i).1) := by
  refine follows_of rfl rfl rfl rfl rfl (fun _ ho => ⟨i, ho⟩) ?_ ?_
  · intro r hr o ho
    exact ⟨r, .inl (popped_mem (shared_ne i) hr), ho, rfl⟩
  · rintro r ⟨k, hk⟩ o ho
    exact .inl ⟨r, .inl (mem_of_mem_popped (shared_ne i) hk), ho, rfl⟩

theorem follows_nextRing (s : Rcu n α) (i : Fin n) : Follows s (s.nextRing i) := by
  unfold Rcu.nextRing
  split
  · exact .refl s
  · have htake := follows_takeRing s i
    split
    · rename_i r t heq
      rw [heq] at htake
      exact htake
    · rename_i t heq
      have hpop := follows_popRing s i
      rw [heq] at hpop
      exact (hpop.trans (follows_changeRing t i)).trans (follows_takeRing _ i)

/-- What `get_reusable_item` returns comes from a ring that is old enough. -/
theorem follows_reuseLoop {fuel : ℕ} {ret : Option α} (h : s.reuseLoop i fuel = some (ret, t)) :
    Follows s t ∧ ∀ o, ret = some o → ∃ time, time < s.reusableTime ∧
      (s.Removed o time ∨ (time = s.globalTime ∧ s.Latest o)) := by
  induction fuel generalizing s with
  | zero => cases h
  | succ fuel ih =>
    have hnext := follows_nextRing s i
    rw [Rcu.reuseLoop] at h
    split at h
    · cases h
      exact ⟨hnext, fun o ho => (by cases ho)⟩
    · rename_i r hr
      split at h
      · rename_i hreusable
        have hlt : r.removeTime < s.reusableTime := by
          rw [← hnext.reusableTime]
          exact of_decide_eq_true hreusable
        split at h
        · rename_i x items hitems
          cases h
          refine ⟨hnext.trans (follows_setOldest _ i ?_), ?_⟩
          · rintro r' heq o ho
            cases heq
            exact removed_oldest hr o (hitems ▸ List.mem_cons_of_mem x ho)
          · intro o ho
            cases ho
            have hx : x ∈ r.items := hitems ▸ List.mem_cons_self
            exact ⟨r.removeTime, hlt, hnext.removed x _ (removed_oldest hr x hx)⟩
        · have hfree := follows_setOldest (s.nextRing i) i (r := none) (fun _ heq => by cases heq)
          obtain ⟨hfollows, hret⟩ := ih h
          refine ⟨(hnext.trans hfree).trans hfollows, fun o ho => ?_⟩
          obtain ⟨time, htime, hplace⟩ := hret o ho
          exact ⟨time, hnext.reusableTime ▸ htime, (hnext.trans hfree).origin hplace⟩
      · cases h
        exact ⟨hnext, fun o ho => (by cases ho)⟩

/-- Rings are not touched when a slot keeps its `oldest_ring`. -/
theorem removed_setSlot {x : Slot α} (hold : x.oldestRing = (s.slot i).oldestRing) {time : ℕ}
    (h : (s.setSlot i x).Removed o time) : s.Removed o time := by
  obtain ⟨r, hr | ⟨j, hr⟩, ho, htime⟩ := h
  · exact ⟨r, .inl hr, ho, htime⟩
  · refine ⟨r, .inr ⟨j, ?_⟩, ho, htime⟩
    by_cases hj : j = i
    · subst hj
      rw [s.slot_setSlot_self] at hr
      exact hold.symm.trans hr
    · rwa [s.slot_setSlot_ne x hj] at hr

theorem fixtime_setSlot {x : Slot α} (hfix : x.fixtime = (s.slot i).fixtime) (j : Fin n) :
    ((s.setSlot i x).slot j).fixtime = (s.slot j).fixtime := by
  by_cases hj : j = i
  · subst hj
    rw [s.slot_setSlot_self, hfix]
  · rw [s.slot_setSlot_ne x hj]

/-- The ring that `regist_free_obj` may give to the pool does not hold the new object. -/
theorem registFreeObj_spec (s : Rcu n α) (i : Fin n) (x : α) :
    (s.registFreeObj i x).globalTime = s.globalTime ∧
    (s.registFreeObj i x).reusableTime = s.reusableTime ∧
    (∀ j, ((s.registFreeObj i x).slot j).fixtime = (s.slot j).fixtime) ∧
    ∀ o time, (s.registFreeObj i x).Removed o time →
      s.Removed o time ∨ (time = s.globalTime ∧ s.Latest o) := by
  have hfollows : Follows s (if (s.slot i).latestRing.removeTime < s.globalTime then
      s.changeRing i else s) := by
    split
    · exact follows_changeRing s i
    · exact .refl s
  unfold Rcu.registFreeObj
  simp only
  refine ⟨hfollows.globalTime, hfollows.reusableTime, fun j => ?_, fun o time ho => ?_⟩
  · exact (fixtime_setSlot (by rfl) j).trans (hfollows.fixtime j)
  · exact hfollows.removed o time (removed_setSlot (by rfl) ho)

theorem ref_registFreeObj (s : Rcu n α) (i : Fin n) (x : α) (j : Fin n) :
    ((s.registFreeObj i x).slot j).ref = (s.slot j).ref := by
  have href : ∀ t : Rcu n α, (t.slot j).ref = (s.slot j).ref → ((t.setSlot i { t.slot i with
      latestRing := { (t.slot i).latestRing with
        items := x :: (t.slot i).latestRing.items } }).slot j).ref = (s.slot j).ref := by
    intro t ht
    by_cases hj : j = i
    · subst hj
      rw [t.slot_setSlot_self, ht]
    · rw [t.slot_setSlot_ne _ hj, ht]
  unfold Rcu.registFreeObj
  split
  · exact href _ ((follows_changeRing s i).ref j)
  · exact href s rfl

theorem scanSlot_le (r : Rcu n α) (k : Fin n) (cur : ℕ) : r.scanSlot k cur ≤ cur := by
  unfold Rcu.scanSlot
  simp only
  split
  · rename_i h
    exact Nat.le_of_lt h.2
  · exact Nat.le_refl _

section Fuel
variable (s i)

/-- The rings that the thread of slot `i` can meet. -/
def ringCount : ℕ :=
  (reach (ringPool n) s.freeRingPool i).length + (s.slot i).oldestRing.toList.length +
    min 1 (s.slot i).latestRing.items.length

theorem slot_setOldest (r : Option (FreeRing α)) :
    (s.setOldest i r).slot i = { s.slot i with oldestRing := r } :=
  Function.update_self ..

theorem oldest_changeRing (j : Fin n) :
    ((s.changeRing i).slot j).oldestRing = (s.slot j).oldestRing := by
  unfold Rcu.changeRing
  split
  · rfl
  · by_cases hj : j = i
    · subst hj
      simp [Rcu.setSlot]
    · simp [Rcu.setSlot, Function.update_of_ne hj]

theorem ringCount_changeRing : ringCount (s.changeRing i) i = ringCount s i := by
  unfold Rcu.changeRing
  split
  · rfl
  · rename_i hne
    have hpos := List.length_pos_of_ne_nil hne
    have hpush : (reach (ringPool n) (pushed (ringPool n) s.freeRingPool i
        ⟨(s.slot i).latestRing.items, s.globalTime⟩) i).length =
        (reach (ringPool n) s.freeRingPool i).length + 1 :=
      (reach_pushed (shared_ne i) _).length_eq
    simp only [ringCount, Rcu.setSlot, Function.update_self, hpush, initRing, List.length_nil]
    omega

theorem reach_popRing :
    (reach (ringPool n) (s.popRing i).2.freeRingPool i).length +
      (s.popRing i).1.toList.length = (reach (ringPool n) s.freeRingPool i).length := by
  have hpop : (reach (ringPool n) s.freeRingPool i).Perm ((s.popRing i).1.toList ++
      reach (ringPool n) (s.popRing i).2.freeRingPool i) := reach_popped (shared_ne i)
  rw [hpop.length_eq, List.length_append, Nat.add_comm]

theorem ringCount_takeRing (h : (s.slot i).oldestRing = none) :
    ringCount ((s.popRing i).2.setOldest i (s.popRing i).1) i = ringCount s i := by
  rw [ringCount, ringCount, slot_setOldest, h, ← reach_popRing s i]
  rfl

theorem ringCount_nextRing : ringCount (s.nextRing i) i = ringCount s i := by
  unfold Rcu.nextRing
  split
  · rfl
  · rename_i hnone
    have htake := ringCount_takeRing s i hnone
    split
    · rename_i r t heq
      rw [heq] at htake
      exact htake
    · rename_i t heq
      have hpop := reach_popRing s i
      have hslot : t.slot = s.slot := congrArg (fun r => r.2.slot) heq.symm
      rw [heq] at hpop
      have hcount : ringCount t i = ringCount s i := by
        rw [ringCount, ringCount, hslot, ← hpop]
        rfl
      have hnone' : ((t.changeRing i).slot i).oldestRing = none := by
        rw [oldest_changeRing, hslot, hnone]
      rw [ringCount_takeRing _ i hnone', ringCount_changeRing, hcount]

/-- The fuel of the loop is enough. -/
theorem reuseLoop_returns {fuel : ℕ} (h : ringCount s i < fuel) :
    ∃ r, s.reuseLoop i fuel = some r := by
  induction fuel generalizing s with
  | zero => exact absurd h (Nat.not_lt_zero _)
  | succ fuel ih =>
    have hnext := ringCount_nextRing s i
    rw [Rcu.reuseLoop]
    split
    · exact ⟨_, rfl⟩
    · rename_i r hr
      split
      · split
        · exact ⟨_, rfl⟩
        · refine ih _ ?_
          rw [ringCount, hr] at hnext
          rw [ringCount, slot_setOldest]
          have hreach : (((s.nextRing i).setOldest i none).freeRingPool) =
            (s.nextRing i).freeRingPool := rfl
          rw [hreach]
          simp only [Option.toList_some, List.length_singleton, Option.toList_none,
            List.length_nil] at hnext ⊢
          omega
      · exact ⟨_, rfl⟩

theorem getReusableItem_returns : ∃ r, s.getReusableItem i = some r := by
  refine reuseLoop_returns s i ?_
  have hoption : ((s.slot i).oldestRing.toList).length ≤ 1 := by
    cases (s.slot i).oldestRing <;> simp
  rw [ringCount, Rcu.reuseFuel, reach, List.length_append]
  omega

end Fuel

end YwStorage.RcuRef

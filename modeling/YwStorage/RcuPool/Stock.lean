import YwStorage.RcuPool.Waiting
import YwStorage.RcuPool.Units

/-!
Where the units of a pool are: free in the memory pool, waiting in a ring, or handed out. One lemma
per operation of the pool.
-/
namespace YwStorage.RcuPool
open Pool RcuRef

variable {n : ℕ} {c : Config} {i : Fin n} {k : ℕ}

/-- Only the thread of slot `i` reads, in `k` nested sections, and the clock stands between two
updates. -/
structure Timed (i : Fin n) (k : ℕ) (s : Rcu n Obj) : Prop where
  even : s.globalTime % 2 = 0
  pos : 0 < s.globalTime
  reusable : s.reusableTime ≤ s.globalTime
  others : ∀ j, j ≠ i → (s.slot j).fixtime = 0
  own : (k = 0 ∧ (s.slot i).fixtime = 0 ∧ (s.slot i).ref = 0) ∨
    ((s.slot i).fixtime ≠ 0 ∧ (s.slot i).ref + 1 = k)

namespace Timed
variable {s t : Rcu n Obj} (h : Timed i k s)
include h

theorem congr (hglobal : t.globalTime = s.globalTime) (hreusable : t.reusableTime = s.reusableTime)
    (hfix : ∀ j, (t.slot j).fixtime = (s.slot j).fixtime)
    (href : (t.slot i).ref = (s.slot i).ref) : Timed i k t := by
  refine ⟨by rw [hglobal, h.even], hglobal ▸ h.pos, by rw [hglobal, hreusable]; exact h.reusable,
    fun j hj => (hfix j).trans (h.others j hj), ?_⟩
  rw [hfix, href]
  exact h.own

theorem follows (hfollows : Follows s t) : Timed i k t :=
  h.congr hfollows.globalTime hfollows.reusableTime hfollows.fixtime (hfollows.ref i)

theorem registFreeObj (o : Obj) : Timed i k (s.registFreeObj i o) := by
  obtain ⟨hglobal, hreusable, hfix, -⟩ := registFreeObj_spec s i o
  exact h.congr hglobal hreusable hfix (ref_registFreeObj s i o i)

theorem fix : Timed i (k + 1) (s.fix i) := by
  have hother : ∀ x, ∀ j, j ≠ i → ((s.setSlot i x).slot j).fixtime = 0 := fun x j hj => by
    rw [s.slot_setSlot_ne x hj]
    exact h.others j hj
  unfold Rcu.fix
  by_cases hfix : (s.slot i).fixtime ≠ 0
  · rw [if_pos hfix]
    refine ⟨h.even, h.pos, h.reusable, hother _, .inr ?_⟩
    rw [s.slot_setSlot_self]
    rcases h.own with ⟨-, hzero, -⟩ | ⟨-, href⟩
    · exact absurd hzero hfix
    · exact ⟨hfix, by rw [href]⟩
  · rw [if_neg hfix]
    refine ⟨h.even, h.pos, h.reusable, hother _, .inr ?_⟩
    rw [s.slot_setSlot_self]
    rcases h.own with ⟨rfl, -, href⟩ | ⟨hne, -⟩
    · exact ⟨Nat.ne_of_gt h.pos, by rw [href]⟩
    · exact absurd hne hfix

omit h in
theorem unfix (h : Timed i (k + 1) s) : Timed i k (s.unfix i) := by
  have hother : ∀ x, ∀ j, j ≠ i → ((s.setSlot i x).slot j).fixtime = 0 := fun x j hj => by
    rw [s.slot_setSlot_ne x hj]
    exact h.others j hj
  obtain ⟨hfix, href⟩ : (s.slot i).fixtime ≠ 0 ∧ (s.slot i).ref + 1 = k + 1 := by
    rcases h.own with ⟨hk, -, -⟩ | hown
    · cases hk
    · exact hown
  unfold Rcu.unfix
  by_cases hzero : (s.slot i).ref = 0
  · rw [if_pos hzero]
    refine ⟨h.even, h.pos, h.reusable, hother _, .inl ?_⟩
    rw [s.slot_setSlot_self]
    exact ⟨by omega, rfl, hzero⟩
  · rw [if_neg hzero]
    refine ⟨h.even, h.pos, h.reusable, hother _, .inr ?_⟩
    rw [s.slot_setSlot_self]
    exact ⟨hfix, by simp only; omega⟩

theorem updateReusableTime : Timed i k s.updateReusableTime := by
  obtain ⟨hslot, -, hglobal⟩ := updateReusableTime_spec s
  have hglobal := hglobal h.even
  have hreusable : s.updateReusableTime.reusableTime ≤ s.globalTime + 1 := by
    have hscan : ∀ (l : List (Fin n)) cur,
        l.foldl (fun cur k => s.lock.scanSlot k cur) cur ≤ cur := by
      intro l
      induction l with
      | nil => exact Nat.le_refl
      | cons j l ih => exact fun cur => Nat.le_trans (ih _) (scanSlot_le _ _ _)
    unfold Rcu.updateReusableTime
    rw [if_pos h.even, ← lock_globalTime h.even]
    exact hscan _ _
  have heven := h.even
  refine ⟨by omega, by omega, by omega, fun j hj => ?_, ?_⟩
  · rw [hslot]
    exact h.others j hj
  · rw [hslot]
    exact h.own

theorem aging : Timed i k (s.aging i) :=
  ((h.follows (follows_changeRing s i)).updateReusableTime).congr rfl rfl (fun _ => rfl) rfl

theorem idle (hk : k = 0) (j : Fin n) : (s.slot j).fixtime = 0 := by
  by_cases hj : j = i
  · subst hj
    rcases h.own with ⟨-, hzero, -⟩ | ⟨-, href⟩
    · exact hzero
    · omega
  · exact h.others j hj

end Timed

/-- Every unit is free, waits, or is one of those in `out`. -/
structure Stocked (c : Config) (i : Fin n) (k : ℕ) (out : List Obj) (p : RcuPool n) : Prop where
  units : (units c p.mem).Perm (freeList i p.mem ++ (waiting i p.rcu ++ out))
  alone : Alone i p.mem
  dated : Dated i p.rcu
  timed : Timed i k p.rcu

theorem stocked_create (c : Config) (i : Fin n) : Stocked c i 0 [] (create n).pool := by
  refine ⟨.refl _, fun _ _ _ => rfl, fun r hr => (by cases hr), ?_⟩
  exact ⟨Nat.mod_self 2, Nat.two_pos, Nat.le_refl _, fun _ _ => rfl, .inl ⟨rfl, rfl, rfl⟩⟩

namespace Stocked
variable {p : RcuPool n} {out : List Obj} (h : Stocked c i k out p)
include h

theorem nodup : (freeList i p.mem ++ (waiting i p.rcu ++ out)).Nodup :=
  h.units.nodup_iff.mp (nodup_units c p.mem)

theorem out_nodup : out.Nodup := (List.nodup_append.mp (List.nodup_append.mp h.nodup).2.1).2.1

theorem perm {out' : List Obj} (hout : out.Perm out') : Stocked c i k out' p :=
  ⟨h.units.trans ((hout.append_left _).append_left _), h.alone, h.dated, h.timed⟩

/-- Objects change places as `rcu` does. -/
theorem setRcu {rcu : Rcu n Obj} {k' : ℕ} {out' : List Obj}
    (hwaiting : (waiting i p.rcu ++ out).Perm (waiting i rcu ++ out')) (hdated : Dated i rcu)
    (htimed : Timed i k' rcu) : Stocked c i k' out' { p with rcu } :=
  ⟨h.units.trans (hwaiting.append_left _), h.alone, hdated, htimed⟩

theorem getReusableItem {ret : Option Obj} {rcu : Rcu n Obj}
    (hget : p.rcu.getReusableItem i = some (ret, rcu)) :
    Stocked c i k (ret.toList ++ out) { p with rcu } := by
  obtain ⟨hwaiting, hdated⟩ := reuseLoop_spec hget h.dated
  refine h.setRcu ?_ hdated (h.timed.follows (follows_reuseLoop hget).1)
  refine (hwaiting.append_right out).trans ?_
  rw [← List.append_assoc]
  exact List.perm_append_comm.append_right out

theorem alloc (malloc : Bool) : ∃ ret q, p.alloc c i malloc = some (ret, q) ∧
    Stocked c i k (ret.toList ++ out) q ∧
    ∀ o, ret = some o → o ∈ waiting i p.rcu →
      ∃ time < p.rcu.reusableTime, p.rcu.Removed o time := by
  obtain ⟨⟨ret, rcu⟩, hget⟩ := getReusableItem_returns p.rcu i
  have hstock := h.getReusableItem hget
  unfold RcuPool.alloc
  rw [hget]
  cases ret with
  | some o =>
    refine ⟨some o, _, rfl, hstock, ?_⟩
    intro o' ho _
    obtain rfl := Option.some.inj ho
    obtain ⟨time, hlt, hremoved | ⟨rfl, -⟩⟩ := (follows_reuseLoop hget).2 o rfl
    · exact ⟨time, hlt, hremoved⟩
    · exact absurd h.timed.reusable (Nat.not_le_of_lt hlt)
  | none =>
    obtain ⟨new, hunits, hfree, halone⟩ := alloc_spec (c := c) (i := i) p.mem malloc
    have hperm : (RcuPool.units c (p.mem.alloc c i malloc).2).Perm
        (freeList i (p.mem.alloc c i malloc).2 ++
          (waiting i rcu ++ ((p.mem.alloc c i malloc).1.toList ++ out))) := by
      have hstock := hstock.units
      rw [← Multiset.coe_eq_coe] at hunits hfree hstock ⊢
      simp only [← Multiset.coe_add, Option.toList_none, List.nil_append] at hunits hfree hstock ⊢
      rw [hunits, hstock, ← add_assoc, ← hfree]
      abel
    refine ⟨_, _, rfl, ⟨hperm, halone h.alone, hstock.dated, hstock.timed⟩, ?_⟩
    intro o ho hwaiting
    -- what the memory pool gives out does not wait
    have hnodup := hperm.nodup_iff.mp (nodup_units c _)
    rw [ho] at hnodup
    have hapart := (List.nodup_append.mp (List.nodup_append.mp hnodup).2.1).2.2
    have hkept := (reuseLoop_spec hget h.dated).1
    have hmem : o ∈ waiting i rcu := by simpa using hkept.mem_iff.mp hwaiting
    exact absurd rfl (hapart o hmem o (by simp))

omit h in
theorem free {o : Obj} (h : Stocked c i k (o :: out) p) : Stocked c i k out (p.free i o) := by
  obtain ⟨hwaiting, hdated⟩ := registFreeObj_waiting p.rcu i o
  refine h.setRcu ?_ (hdated h.dated) (h.timed.registFreeObj o)
  exact List.perm_middle.trans (hwaiting.append_right out).symm

omit h in
/-- The loops of `commit` and `rollback`. -/
theorem freeAll {l : List Obj} (h : Stocked c i k (l ++ out) p) :
    Stocked c i k out (l.foldl (fun p o => p.free i o) p) := by
  induction l generalizing p with
  | nil => exact h
  | cons o l ih => exact ih h.free

theorem fix : Stocked c i (k + 1) out { p with rcu := p.rcu.fix i } := by
  have hslot : ((p.rcu.fix i).slot i).oldestRing = (p.rcu.slot i).oldestRing ∧
      ((p.rcu.fix i).slot i).latestRing = (p.rcu.slot i).latestRing ∧
      (p.rcu.fix i).freeRingPool = p.rcu.freeRingPool ∧
      (p.rcu.fix i).globalTime = p.rcu.globalTime := by
    unfold Rcu.fix
    simp only
    split <;> simp [Rcu.setSlot]
  obtain ⟨hrings, hwaiting⟩ := waiting_congr hslot.1 hslot.2.1 hslot.2.2.1
  refine h.setRcu (by rw [hwaiting]) ?_ h.timed.fix
  intro r hr
  rw [hrings] at hr
  rw [hslot.2.2.2]
  exact h.dated r hr

omit h in
theorem unfix (h : Stocked c i (k + 1) out p) :
    Stocked c i k out { p with rcu := p.rcu.unfix i } := by
  have hslot : ((p.rcu.unfix i).slot i).oldestRing = (p.rcu.slot i).oldestRing ∧
      ((p.rcu.unfix i).slot i).latestRing = (p.rcu.slot i).latestRing ∧
      (p.rcu.unfix i).freeRingPool = p.rcu.freeRingPool ∧
      (p.rcu.unfix i).globalTime = p.rcu.globalTime := by
    unfold Rcu.unfix
    simp only
    split <;> simp [Rcu.setSlot]
  obtain ⟨hrings, hwaiting⟩ := waiting_congr hslot.1 hslot.2.1 hslot.2.2.1
  refine h.setRcu (by rw [hwaiting]) ?_ h.timed.unfix
  intro r hr
  rw [hrings] at hr
  rw [hslot.2.2.2]
  exact h.dated r hr

theorem updateReusableTime : Stocked c i k out { p with rcu := p.rcu.updateReusableTime } := by
  obtain ⟨hslot, hpool, hglobal⟩ := updateReusableTime_spec p.rcu
  obtain ⟨hrings, hwaiting⟩ :=
    waiting_congr (congrArg (fun f => (f i).oldestRing) hslot)
      (congrArg (fun f => (f i).latestRing) hslot) hpool
  refine h.setRcu (by rw [hwaiting]) ?_ h.timed.updateReusableTime
  intro r hr
  rw [hrings] at hr
  rw [hglobal h.timed.even]
  exact Nat.le_add_right_of_le (h.dated r hr)

theorem aging : Stocked c i k out (p.aging i) := by
  have hkept := kept_aging p.rcu i
  have hfollows := follows_changeRing p.rcu i
  have hglobal : p.rcu.globalTime ≤ (p.rcu.aging i).globalTime := by
    have hupdate := (updateReusableTime_spec (p.rcu.changeRing i)).2.2
      (by rw [hfollows.globalTime]; exact h.timed.even)
    rw [hfollows.globalTime] at hupdate
    have hsame : (p.rcu.aging i).globalTime = (p.rcu.changeRing i).updateReusableTime.globalTime :=
      rfl
    omega
  exact h.setRcu (hkept.waiting.symm.append_right out) (hkept.dated hglobal h.dated) h.timed.aging

theorem freeMem {o : Obj} {out' : List Obj} (ho : out = o :: out') :
    Stocked c i k out' { p with mem := p.mem.freeMem i o } := by
  subst ho
  refine ⟨h.units.trans ?_, alone_freeMem h.alone o, h.dated, h.timed⟩
  refine List.Perm.trans ?_ ((freeList_freeMem p.mem i o).symm.append_right _)
  rw [← List.append_assoc, ← List.append_assoc, List.cons_append]
  exact List.perm_middle

theorem reclaimLoop {fuel : ℕ} (hfuel : (waiting i p.rcu).length < fuel) :
    ∃ q, p.reclaimLoop i fuel = some q ∧ Stocked c i k out q ∧
      (Drainable i p.rcu → waiting i q.rcu = []) := by
  induction fuel generalizing p with
  | zero => exact absurd hfuel (Nat.not_lt_zero _)
  | succ fuel ih =>
    obtain ⟨⟨ret, rcu⟩, hget⟩ := getReusableItem_returns p.rcu i
    have hstock := h.getReusableItem hget
    have hlen := (reuseLoop_spec hget h.dated).1.length_eq
    rw [RcuPool.reclaimLoop, hget]
    cases ret with
    | none => exact ⟨_, rfl, hstock, fun hdrain => (reuseLoop_drains hget hdrain).2 rfl⟩
    | some o =>
      obtain ⟨q, heq, hq, hempty⟩ := ih (hstock.freeMem rfl) (by
        rw [List.length_append] at hlen
        simp at hlen ⊢
        omega)
      exact ⟨q, heq, hq, fun hdrain => hempty (reuseLoop_drains hget hdrain).1⟩

theorem reclaimToPool : ∃ q, p.reclaimToPool i = some q ∧ Stocked c i k out q ∧
    (Drainable i p.rcu → waiting i q.rcu = []) :=
  h.reclaimLoop (Nat.lt_succ_self _)

theorem allFree (hwaiting : waiting i p.rcu = []) (hout : out = []) : p.allFree c = true := by
  have hlen := h.units.length_eq
  rw [hwaiting, hout, List.append_nil, List.append_nil, length_units] at hlen
  unfold RcuPool.allFree MemPool.allFree
  rw [getFreeCount_eq h.alone, hlen]
  exact beq_self_eq_true _

end Stocked
end YwStorage.RcuPool

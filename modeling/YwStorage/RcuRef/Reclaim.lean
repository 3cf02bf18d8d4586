import YwStorage.RcuRef.Rings
import YwStorage.Lib.Run

/-!
No object is reused while a reader that was there at its removal still reads. Threads interleave
between the two halves of `fix` and at every slot of a scan.
-/
namespace YwStorage.RcuRef
open Lts

variable {n : ℕ} {α : Type}

/-- Where a thread is inside `fix` or `update_reusable_time`. -/
inductive Pc
  | idle
  | fixing (time : ℕ)
  | locked
  | scanning (k cur : ℕ)
  | stored
  deriving DecidableEq

structure System (n : ℕ) (α : Type) where
  rcu : Rcu n α
  pc : Fin n → Pc

def init (n : ℕ) (α : Type) : System n α := ⟨create n α, fun _ => .idle⟩

namespace System

def set (s : System n α) (i : Fin n) (rcu : Rcu n α) (pc : Pc) : System n α :=
  ⟨rcu, Function.update s.pc i pc⟩

end System

inductive Label (n : ℕ) (α : Type)
  | fixRead (i : Fin n)
  | fixStore (i : Fin n)
  | fixNested (i : Fin n)
  | unfix (i : Fin n)
  | lock (i : Fin n)
  | release (i : Fin n)
  | registFreeObj (i : Fin n) (o : α)
  | changeRing (i : Fin n)
  | getReusableItem (i : Fin n) (ret : Option α)
  | updateLock (i : Fin n)
  | updateRead (i : Fin n)
  | scanSlot (i : Fin n)
  | updateStore (i : Fin n)
  | updateRelease (i : Fin n)

/-- An object that waits is not registered again. -/
def Rcu.Waits (s : Rcu n α) (o : α) : Prop := s.Latest o ∨ ∃ time, s.Removed o time

inductive Step : System n α → Label n α → System n α → Prop
  | fixRead {s : System n α} {i : Fin n} (hpc : s.pc i = .idle)
      (hfix : (s.rcu.slot i).fixtime = 0) :
      Step s (.fixRead i) (s.set i s.rcu (.fixing s.rcu.globalTime))
  | fixStore {s : System n α} {i : Fin n} {time : ℕ} (hpc : s.pc i = .fixing time) :
      Step s (.fixStore i)
        (s.set i (s.rcu.setSlot i { s.rcu.slot i with fixtime := time }) .idle)
  | fixNested {s : System n α} {i : Fin n} (hpc : s.pc i = .idle)
      (hfix : (s.rcu.slot i).fixtime ≠ 0) :
      Step s (.fixNested i)
        (s.set i (s.rcu.setSlot i { s.rcu.slot i with ref := (s.rcu.slot i).ref + 1 }) .idle)
  | unfix {s : System n α} {i : Fin n} (hpc : s.pc i = .idle) :
      Step s (.unfix i) (s.set i (s.rcu.unfix i) .idle)
  | lock {s : System n α} {i : Fin n} (hpc : s.pc i = .idle) (heven : s.rcu.globalTime % 2 = 0) :
      Step s (.lock i) (s.set i s.rcu.lock .idle)
  | release {s : System n α} {i : Fin n} (hpc : s.pc i = .idle)
      (hodd : s.rcu.globalTime % 2 = 1) : Step s (.release i) (s.set i s.rcu.release .idle)
  | registFreeObj {s : System n α} {i : Fin n} {o : α} (hpc : s.pc i = .idle)
      (ho : ¬ s.rcu.Waits o) :
      Step s (.registFreeObj i o) (s.set i (s.rcu.registFreeObj i o) .idle)
  | changeRing {s : System n α} {i : Fin n} (hpc : s.pc i = .idle) :
      Step s (.changeRing i) (s.set i (s.rcu.changeRing i) .idle)
  | getReusableItem {s : System n α} {i : Fin n} {ret : Option α} {rcu : Rcu n α}
      (hpc : s.pc i = .idle) (hget : s.rcu.getReusableItem i = some (ret, rcu)) :
      Step s (.getReusableItem i ret) (s.set i rcu .idle)
  | updateLock {s : System n α} {i : Fin n} (hpc : s.pc i = .idle)
      (heven : s.rcu.globalTime % 2 = 0) : Step s (.updateLock i) (s.set i s.rcu.lock .locked)
  | updateRead {s : System n α} {i : Fin n} (hpc : s.pc i = .locked) :
      Step s (.updateRead i) (s.set i s.rcu (.scanning 0 s.rcu.globalTime))
  | scanSlot {s : System n α} {i : Fin n} {k cur : ℕ} (hpc : s.pc i = .scanning k cur)
      (hk : k < n) :
      Step s (.scanSlot i) (s.set i s.rcu (.scanning (k + 1) (s.rcu.scanSlot ⟨k, hk⟩ cur)))
  | updateStore {s : System n α} {i : Fin n} {cur : ℕ} (hpc : s.pc i = .scanning n cur) :
      Step s (.updateStore i) (s.set i { s.rcu with reusableTime := cur } .stored)
  | updateRelease {s : System n α} {i : Fin n} (hpc : s.pc i = .stored)
      (hodd : s.rcu.globalTime % 2 = 1) :
      Step s (.updateRelease i) (s.set i s.rcu.release .idle)

/-- Every time that a thread holds is a time of the clock, and no thread that has published a time
is about to publish another. -/
structure Clock (s : System n α) : Prop where
  reusable : s.rcu.reusableTime ≤ s.rcu.globalTime
  fixtime : ∀ i, (s.rcu.slot i).fixtime ≤ s.rcu.globalTime
  fixing : ∀ i time, s.pc i = .fixing time →
    time ≤ s.rcu.globalTime ∧ (s.rcu.slot i).fixtime = 0
  scanning : ∀ i k cur, s.pc i = .scanning k cur → cur ≤ s.rcu.globalTime

variable {s t : System n α} {a : Label n α} {i : Fin n}

theorem clock_init : Clock (init n α) :=
  ⟨Nat.le_refl _, fun _ => Nat.zero_le _, fun _ _ h => (by cases h), fun _ _ _ h => (by cases h)⟩

/-- A step of a thread that leaves the other slots alone. -/
theorem clock_set (h : Clock s) {rcu : Rcu n α} {pc : Pc}
    (hglobal : s.rcu.globalTime ≤ rcu.globalTime) (hreusable : rcu.reusableTime ≤ rcu.globalTime)
    (hfixtime : (rcu.slot i).fixtime ≤ rcu.globalTime)
    (hother : ∀ j, j ≠ i → (rcu.slot j).fixtime = (s.rcu.slot j).fixtime)
    (hfixing : ∀ time, pc = .fixing time → time ≤ rcu.globalTime ∧ (rcu.slot i).fixtime = 0)
    (hscanning : ∀ k cur, pc = .scanning k cur → cur ≤ rcu.globalTime) :
    Clock (s.set i rcu pc) := by
  have hpc : ∀ j, (s.set i rcu pc).pc j = Function.update s.pc i pc j := fun _ => rfl
  refine ⟨hreusable, fun j => ?_, fun j time hj => ?_, fun j k cur hj => ?_⟩
  · by_cases hji : j = i
    · rw [hji]
      exact hfixtime
    · rw [show ((s.set i rcu pc).rcu.slot j).fixtime = (s.rcu.slot j).fixtime from hother j hji]
      exact Nat.le_trans (h.fixtime j) hglobal
  · rw [hpc] at hj
    by_cases hji : j = i
    · rw [hji, Function.update_self] at hj
      rw [hji]
      exact hfixing time hj
    · rw [Function.update_of_ne hji] at hj
      obtain ⟨htime, hzero⟩ := h.fixing j time hj
      exact ⟨Nat.le_trans htime hglobal, (hother j hji).trans hzero⟩
  · rw [hpc] at hj
    by_cases hji : j = i
    · rw [hji, Function.update_self] at hj
      exact hscanning k cur hj
    · rw [Function.update_of_ne hji] at hj
      exact Nat.le_trans (h.scanning j k cur hj) hglobal

theorem le_lock (r : Rcu n α) : r.globalTime ≤ r.lock.globalTime := Nat.left_le_or

theorem fixtime_unfix (r : Rcu n α) (j : Fin n) :
    ((r.unfix i).slot j).fixtime ≤ (r.slot j).fixtime ∧
      (j ≠ i ∨ (r.slot i).ref ≠ 0 → ((r.unfix i).slot j).fixtime = (r.slot j).fixtime) := by
  unfold Rcu.unfix
  simp only
  split
  · rename_i href
    by_cases hj : j = i
    · subst hj
      rw [r.slot_setSlot_self]
      refine ⟨Nat.zero_le _, fun h => ?_⟩
      rcases h with h | h
      · exact absurd rfl h
      · exact absurd href h
    · rw [r.slot_setSlot_ne _ hj]
      exact ⟨Nat.le_refl _, fun _ => rfl⟩
  · have hsame := fixtime_setSlot (s := r) (i := i)
      (x := { r.slot i with ref := (r.slot i).ref - 1 }) rfl j
    exact ⟨Nat.le_of_eq hsame, fun _ => hsame⟩

theorem clock_step (h : Clock s) (hstep : Step s a t) : Clock t := by
  have hkeep : ∀ {i : Fin n} {rcu : Rcu n α}, rcu.globalTime = s.rcu.globalTime →
      rcu.reusableTime = s.rcu.reusableTime →
      (∀ j, (rcu.slot j).fixtime = (s.rcu.slot j).fixtime) → Clock (s.set i rcu .idle) := by
    intro i rcu hglobal hreusable hfix
    refine clock_set h (Nat.le_of_eq hglobal.symm) ?_ ?_ (fun j _ => hfix j)
      (fun _ heq => by cases heq) (fun _ _ heq => by cases heq)
    · rw [hglobal, hreusable]
      exact h.reusable
    · rw [hglobal, hfix]
      exact h.fixtime i
  have htick : ∀ {i : Fin n} {rcu : Rcu n α} {pc : Pc}, s.rcu.globalTime ≤ rcu.globalTime →
      rcu.reusableTime = s.rcu.reusableTime → rcu.slot = s.rcu.slot →
      (pc = .idle ∨ pc = .locked) → Clock (s.set i rcu pc) := by
    intro i rcu pc hglobal hreusable hslot hpc
    refine clock_set h hglobal ?_ ?_ (fun j _ => by rw [hslot]) (fun _ heq => ?_)
      (fun _ _ heq => ?_)
    · rw [hreusable]
      exact Nat.le_trans h.reusable hglobal
    · rw [hslot]
      exact Nat.le_trans (h.fixtime i) hglobal
    · rcases hpc with rfl | rfl <;> cases heq
    · rcases hpc with rfl | rfl <;> cases heq
  cases hstep with
  | @fixRead i hpc hfix =>
    refine clock_set h (Nat.le_refl _) h.reusable (h.fixtime i) (fun _ _ => rfl)
      (fun time heq => ?_) (fun _ _ heq => by cases heq)
    cases heq
    exact ⟨Nat.le_refl _, hfix⟩
  | @fixStore i time hpc =>
    refine clock_set h (Nat.le_refl _) h.reusable ?_ (fun j hj => ?_) (fun _ heq => by cases heq)
      (fun _ _ heq => by cases heq)
    · rw [s.rcu.slot_setSlot_self]
      exact (h.fixing i time hpc).1
    · rw [s.rcu.slot_setSlot_ne _ hj]
  | fixNested hpc hfix => exact hkeep rfl rfl fun j => fixtime_setSlot (by rfl) j
  | @unfix i hpc =>
    have hglobal : (s.rcu.unfix i).globalTime = s.rcu.globalTime := by
      unfold Rcu.unfix
      simp only
      split <;> rfl
    have hreusable : (s.rcu.unfix i).reusableTime = s.rcu.reusableTime := by
      unfold Rcu.unfix
      simp only
      split <;> rfl
    refine clock_set h (Nat.le_of_eq hglobal.symm) ?_ ?_
      (fun j hj => (fixtime_unfix s.rcu j).2 (.inl hj)) (fun _ heq => by cases heq)
      (fun _ _ heq => by cases heq)
    · rw [hglobal, hreusable]
      exact h.reusable
    · rw [hglobal]
      exact Nat.le_trans (fixtime_unfix s.rcu i).1 (h.fixtime i)
  | lock hpc heven => exact htick (le_lock _) rfl rfl (.inl rfl)
  | release hpc hodd => exact htick (Nat.le_succ _) rfl rfl (.inl rfl)
  | @registFreeObj i o hpc ho =>
    obtain ⟨hglobal, hreusable, hfix, -⟩ := registFreeObj_spec s.rcu i o
    exact hkeep hglobal hreusable hfix
  | @changeRing i hpc =>
    have hfollows := follows_changeRing s.rcu i
    exact hkeep hfollows.globalTime hfollows.reusableTime hfollows.fixtime
  | getReusableItem hpc hget =>
    have hfollows := (follows_reuseLoop hget).1
    exact hkeep hfollows.globalTime hfollows.reusableTime hfollows.fixtime
  | updateLock hpc heven => exact htick (le_lock _) rfl rfl (.inr rfl)
  | @updateRead i hpc =>
    refine clock_set h (Nat.le_refl _) h.reusable (h.fixtime i) (fun _ _ => rfl)
      (fun _ heq => by cases heq) (fun k cur heq => ?_)
    cases heq
    exact Nat.le_refl _
  | @scanSlot i k cur hpc hk =>
    refine clock_set h (Nat.le_refl _) h.reusable (h.fixtime i) (fun _ _ => rfl)
      (fun _ heq => by cases heq) (fun k' cur' heq => ?_)
    cases heq
    exact Nat.le_trans (scanSlot_le _ _ _) (h.scanning i k cur hpc)
  | @updateStore i cur hpc =>
    exact clock_set h (Nat.le_refl _) (h.scanning i n cur hpc) (h.fixtime i) (fun _ _ => rfl)
      (fun _ heq => by cases heq) (fun _ _ heq => by cases heq)
  | updateRelease hpc hodd => exact htick (Nat.le_succ _) rfl rfl (.inl rfl)

/-- The reader `r` keeps the object: every ring that holds it is at least as young as the reader, as
the reusable time, and as what a scan that is past the reader has found. -/
structure Guarded (s : System n α) (r : Fin n) (o : α) : Prop where
  fixed : (s.rcu.slot r).fixtime ≠ 0
  fixtime : ∀ time, s.rcu.Removed o time → (s.rcu.slot r).fixtime ≤ time
  reusable : ∀ time, s.rcu.Removed o time → s.rcu.reusableTime ≤ time
  scanning : ∀ time, s.rcu.Removed o time → ∀ i k cur, s.pc i = .scanning k cur →
    k ≤ r.val ∨ cur ≤ time

section Guarded
variable {r : Fin n} {o : α}

/-- A new ring has the present clock, which is not below any of these times. -/
theorem guarded_set (h : Guarded s r o) (hclock : Clock s) {rcu : Rcu n α} {pc : Pc}
    (hfixtime : (rcu.slot r).fixtime = (s.rcu.slot r).fixtime)
    (hreusable : rcu.reusableTime = s.rcu.reusableTime)
    (hremoved : ∀ time, rcu.Removed o time → s.rcu.Removed o time ∨ time = s.rcu.globalTime)
    (hscanning : ∀ k cur, pc = .scanning k cur → ∀ time, rcu.Removed o time →
      k ≤ r.val ∨ cur ≤ time) : Guarded (s.set i rcu pc) r o := by
  refine ⟨?_, fun time ho => ?_, fun time ho => ?_, fun time ho j k cur hj => ?_⟩
  · exact fun heq => h.fixed (hfixtime.symm.trans heq)
  · show (rcu.slot r).fixtime ≤ time
    rw [hfixtime]
    rcases hremoved time ho with ho | rfl
    · exact h.fixtime time ho
    · exact hclock.fixtime r
  · show rcu.reusableTime ≤ time
    rw [hreusable]
    rcases hremoved time ho with ho | rfl
    · exact h.reusable time ho
    · exact hclock.reusable
  · have hj : Function.update s.pc i pc j = .scanning k cur := hj
    by_cases hji : j = i
    · rw [hji, Function.update_self] at hj
      exact hscanning k cur hj time ho
    · rw [Function.update_of_ne hji] at hj
      rcases hremoved time ho with ho | rfl
      · exact h.scanning time ho j k cur hj
      · exact .inr (hclock.scanning j k cur hj)

/-- The scan takes a published time that it meets. -/
theorem scanSlot_le_fixtime (h : (s.rcu.slot r).fixtime ≠ 0) (cur : ℕ) :
    s.rcu.scanSlot r cur ≤ (s.rcu.slot r).fixtime := by
  unfold Rcu.scanSlot
  simp only
  split
  · exact Nat.le_refl _
  · rename_i hle
    exact Nat.le_of_not_lt fun hlt => hle ⟨h, hlt⟩

theorem guarded_step (h : Guarded s r o) (hclock : Clock s)
    (hstep : restrict Step (fun s a => a = .unfix r → (s.rcu.slot r).ref ≠ 0) s a t) :
    Guarded t r o ∧ ∀ i, a ≠ .getReusableItem i (some o) := by
  obtain ⟨hstep, hfixed⟩ := hstep
  have hkeep : ∀ {i : Fin n} {rcu : Rcu n α} {pc : Pc},
      (rcu.slot r).fixtime = (s.rcu.slot r).fixtime →
      rcu.reusableTime = s.rcu.reusableTime →
      (∀ time, rcu.Removed o time → s.rcu.Removed o time ∨ time = s.rcu.globalTime) →
      (∀ k cur, pc ≠ .scanning k cur) → Guarded (s.set i rcu pc) r o :=
    fun hfixtime hreusable hremoved hpc =>
      guarded_set h hclock hfixtime hreusable hremoved fun k cur heq => absurd heq (hpc k cur)
  have hfollow : ∀ {i : Fin n} {rcu : Rcu n α}, Follows s.rcu rcu →
      Guarded (s.set i rcu .idle) r o := fun hfollows =>
    hkeep (hfollows.fixtime r) hfollows.reusableTime
      (fun time ho => (hfollows.removed o time ho).imp_right And.left)
      fun k cur heq => by cases heq
  cases hstep with
  | fixRead hpc hfix =>
    exact ⟨hkeep rfl rfl (fun _ => .inl) fun _ _ heq => (by cases heq), fun _ heq => by cases heq⟩
  | @fixStore i time hpc =>
    have hne : r ≠ i := by
      rintro rfl
      exact h.fixed (hclock.fixing r time hpc).2
    refine ⟨hkeep ?_ rfl (fun _ ho => .inl (removed_setSlot (by rfl) ho)) fun _ _ heq => ?_,
      fun _ heq => by cases heq⟩
    · rw [s.rcu.slot_setSlot_ne _ hne]
    · cases heq
  | fixNested hpc hfix =>
    exact ⟨hkeep (fixtime_setSlot (by rfl) r) rfl
      (fun _ ho => .inl (removed_setSlot (by rfl) ho)) fun _ _ heq => (by cases heq),
      fun _ heq => by cases heq⟩
  | @unfix i hpc =>
    have hsame : ((s.rcu.unfix i).slot r).fixtime = (s.rcu.slot r).fixtime := by
      refine (fixtime_unfix s.rcu r).2 ?_
      by_cases hri : r = i
      · subst hri
        exact .inr (hfixed rfl)
      · exact .inl hri
    have hreusable : (s.rcu.unfix i).reusableTime = s.rcu.reusableTime := by
      unfold Rcu.unfix
      simp only
      split <;> rfl
    refine ⟨hkeep hsame hreusable (fun time ho => .inl ?_) fun _ _ heq => (by cases heq),
      fun _ heq => by cases heq⟩
    unfold Rcu.unfix at ho
    simp only at ho
    split at ho
    · exact removed_setSlot (by rfl) ho
    · exact removed_setSlot (by rfl) ho
  | lock hpc heven =>
    exact ⟨hkeep rfl rfl (fun _ => .inl) fun _ _ heq => (by cases heq), fun _ heq => by cases heq⟩
  | release hpc hodd =>
    exact ⟨hkeep rfl rfl (fun _ => .inl) fun _ _ heq => (by cases heq), fun _ heq => by cases heq⟩
  | @registFreeObj i x hpc hx =>
    obtain ⟨-, hreusable, hfix, hremoved⟩ := registFreeObj_spec s.rcu i x
    exact ⟨hkeep (hfix r) hreusable (fun time ho => (hremoved o time ho).imp_right And.left)
      fun _ _ heq => (by cases heq), fun _ heq => by cases heq⟩
  | @changeRing i hpc =>
    exact ⟨hfollow (follows_changeRing s.rcu i), fun _ heq => by cases heq⟩
  | getReusableItem hpc hget =>
    obtain ⟨hfollows, hret⟩ := follows_reuseLoop hget
    refine ⟨hfollow hfollows, ?_⟩
    intro j heq
    cases heq
    obtain ⟨time, hlt, ho | ⟨rfl, -⟩⟩ := hret o rfl
    · exact absurd (h.reusable time ho) (Nat.not_le_of_lt hlt)
    · exact absurd hclock.reusable (Nat.not_le_of_lt hlt)
  | updateLock hpc heven =>
    exact ⟨hkeep rfl rfl (fun _ => .inl) fun _ _ heq => (by cases heq), fun _ heq => by cases heq⟩
  | updateRead hpc =>
    refine ⟨guarded_set h hclock rfl rfl (fun _ => .inl) ?_, fun _ heq => by cases heq⟩
    intro k cur heq time ho
    cases heq
    exact .inl (Nat.zero_le _)
  | @scanSlot i k cur hpc hk =>
    refine ⟨guarded_set h hclock rfl rfl (fun _ => .inl) ?_, fun _ heq => by cases heq⟩
    intro k' cur' heq time ho
    cases heq
    rcases h.scanning time ho i k cur hpc with hkr | hcur
    · by_cases heq : k = r.val
      · subst heq
        exact .inr (Nat.le_trans (scanSlot_le_fixtime h.fixed cur) (h.fixtime time ho))
      · exact .inl (by omega)
    · exact .inr (Nat.le_trans (scanSlot_le _ _ _) hcur)
  | @updateStore i cur hpc =>
    have hcur : ∀ time, s.rcu.Removed o time → cur ≤ time := by
      intro time ho
      rcases h.scanning time ho i n cur hpc with hle | hle
      · exact absurd r.isLt (Nat.not_lt_of_le hle)
      · exact hle
    refine ⟨⟨h.fixed, h.fixtime, hcur, fun time ho j k c hj => ?_⟩, fun _ heq => by cases heq⟩
    have hj : Function.update s.pc i .stored j = .scanning k c := hj
    by_cases hji : j = i
    · rw [hji, Function.update_self] at hj
      cases hj
    · rw [Function.update_of_ne hji] at hj
      exact h.scanning time ho j k c hj
  | updateRelease hpc hodd =>
    exact ⟨hkeep rfl rfl (fun _ => .inl) fun _ _ heq => (by cases heq), fun _ heq => by cases heq⟩

theorem guarded_run {ys : List (Label n α)} (h : Guarded s r o) (hclock : Clock s)
    (hrun : Run (restrict Step fun s a => a = .unfix r → (s.rcu.slot r).ref ≠ 0) s ys t) :
    ∀ i, .getReusableItem i (some o) ∉ ys := by
  induction hrun with
  | refl => exact fun _ hmem => (by cases hmem)
  | stepL hstep _ ih =>
    obtain ⟨hguarded, hne⟩ := guarded_step h hclock hstep
    intro i hmem
    rcases List.mem_cons.mp hmem with heq | hmem
    · exact hne i heq.symm
    · exact ih hguarded (clock_step hclock hstep.1) i hmem

/-- While a reader that had published its time before an object was freed has not left, nobody gets
the object. -/
theorem no_reuse_while_fixed {xs ys : List (Label n α)} {u : System n α}
    (hrun : Run Step (init n α) xs s) (hfixed : (s.rcu.slot r).fixtime ≠ 0)
    (hfree : Step s (.registFreeObj i o) u)
    (hrun' : Run (restrict Step fun s a => a = .unfix r → (s.rcu.slot r).ref ≠ 0) u ys t) :
    ∀ j, .getReusableItem j (some o) ∉ ys := by
  have hclock : Clock s := hrun.invariant (fun _ _ _ hstep h => clock_step h hstep) clock_init
  refine guarded_run ?_ (clock_step hclock hfree) hrun'
  cases hfree with
  | registFreeObj hpc ho =>
    obtain ⟨-, -, hfix, hremoved⟩ := registFreeObj_spec s.rcu i o
    have hnone : ∀ time, ¬ (s.rcu.registFreeObj i o).Removed o time := by
      intro time hr
      rcases hremoved o time hr with hr | ⟨-, hr⟩
      · exact ho (.inr ⟨time, hr⟩)
      · exact ho (.inl hr)
    exact ⟨fun heq => hfixed ((hfix r).symm.trans heq), fun time hr => absurd hr (hnone time),
      fun time hr => absurd hr (hnone time), fun time hr => absurd hr (hnone time)⟩

end Guarded

local instance two_neZero : NeZero 2 := ⟨two_ne_zero⟩

/-- Thread 0 reads. -/
def reading : System 2 ℕ where
  rcu := (create 2 ℕ).setSlot 0 ⟨2, 0, none, initRing⟩
  pc := fun _ => .idle

theorem reading_run : Run Step (init 2 ℕ) [.fixRead 0, .fixStore 0] reading := by
  have hpc : ((init 2 ℕ).set 0 (create 2 ℕ) (.fixing 2)).set 0 reading.rcu .idle = reading := by
    show System.mk _ _ = _
    congr 1
    funext j
    revert j
    decide
  exact .stepL (.fixRead rfl rfl) (.stepL (hpc ▸ .fixStore rfl) (.refl _))

/-- Thread 1 gives its ring to the pool and scans. -/
def scanLabels : List (Label 2 ℕ) :=
  [.changeRing 1, .updateLock 1, .updateRead 1, .scanSlot 1, .scanSlot 1, .updateStore 1,
    .updateRelease 1]

theorem reading_waits : ¬ reading.rcu.Waits 5 := by
  have hlatest : ∀ j, (reading.rcu.slot j).latestRing.items = [] := by decide
  have hold : ∀ j, (reading.rcu.slot j).oldestRing.isNone = true := by decide
  rintro (⟨j, hj⟩ | ⟨time, r, ⟨k, hk⟩ | ⟨j, hj⟩, -, -⟩)
  · rw [hlatest] at hj
    cases hj
  · cases hk
  · have := hold j
    rw [hj] at this
    cases this

theorem scanLabels_run : ∃ u t, Step reading (.registFreeObj 1 5) u ∧ t.pc 1 = .idle ∧
    Run (restrict Step fun s a => a = .unfix 0 → (s.rcu.slot 0).ref ≠ 0) u scanLabels t := by
  refine ⟨_, _, .registFreeObj rfl reading_waits, ?_, .stepL ⟨.changeRing rfl, ?_⟩ (.stepL
    ⟨.updateLock rfl rfl, ?_⟩ (.stepL ⟨.updateRead rfl, ?_⟩ (.stepL ⟨.scanSlot rfl (by decide), ?_⟩
    (.stepL ⟨.scanSlot rfl (by decide), ?_⟩ (.stepL ⟨.updateStore rfl, ?_⟩
    (.stepL ⟨.updateRelease rfl rfl, ?_⟩ (.refl _)))))))⟩
  · rfl
  all_goals exact fun heq => by cases heq

theorem scanLabels_not_reused : ∃ u t ret,
    Run Step (init 2 ℕ) [.fixRead 0, .fixStore 0] reading ∧
    (reading.rcu.slot 0).fixtime ≠ 0 ∧ Step reading (.registFreeObj 1 5) u ∧
    Run (restrict Step fun s a => a = .unfix 0 → (s.rcu.slot 0).ref ≠ 0) u
      (scanLabels ++ [.getReusableItem 1 ret]) t ∧ ret ≠ some 5 := by
  obtain ⟨u, t, hfree, hpc, hrun⟩ := scanLabels_run
  obtain ⟨⟨ret, rcu⟩, hget⟩ := getReusableItem_returns t.rcu 1
  have hlast : Run (restrict Step fun s a => a = .unfix 0 → (s.rcu.slot 0).ref ≠ 0) u
      (scanLabels ++ [.getReusableItem 1 ret]) (t.set 1 rcu .idle) :=
    hrun.snoc ⟨.getReusableItem hpc hget, fun heq => by cases heq⟩
  have hfixed : (reading.rcu.slot 0).fixtime ≠ 0 := by decide
  refine ⟨u, _, ret, reading_run, hfixed, hfree, hlast, ?_⟩
  rintro rfl
  exact no_reuse_while_fixed reading_run hfixed hfree hlast 1 (by simp)

end YwStorage.RcuRef

import YwStorage.RcuPool.Stock
import YwStorage.Lib.Run

/-! No object of the pool is lost or handed out twice, whatever the transactions do. -/
namespace YwStorage.RcuPool
open Pool RcuRef Lts

variable {n : ℕ} {c : Config} {i : Fin n} {s : System n}

namespace System

/-- The objects that are live or that a transaction has allocated. -/
def held (s : System n) : List Obj := s.guards.flatMap Guard.allocStack ++ s.live

/-- The objects that a transaction is about to free. -/
def freeing (s : System n) : List Obj := s.guards.flatMap Guard.freeStack

end System

structure Conserved (c : Config) (i : Fin n) (s : System n) : Prop where
  pool : Stocked c i s.guards.length s.held s.pool
  freeing_nodup : s.freeing.Nodup
  freeing_live : ∀ o ∈ s.freeing, o ∈ s.live
  small : ∀ g ∈ s.guards, g.allocStack.length ≤ maxCount ∧ g.freeStack.length ≤ maxCount

theorem conserved_create (c : Config) (i : Fin n) : Conserved c i (create n) :=
  ⟨stocked_create c i, List.nodup_nil, fun _ h => (by cases h), fun _ h => (by cases h)⟩

/-- A guard in its place among the others. -/
theorem guards_split {gs : List Guard} {k : ℕ} {g : Guard} (h : gs[k]? = some g) :
    ∃ a b, gs = a ++ g :: b ∧ (∀ g', gs.set k g' = a ++ g' :: b) ∧ gs.eraseIdx k = a ++ b := by
  obtain ⟨hlt, rfl⟩ := List.getElem?_eq_some_iff.mp h
  refine ⟨gs.take k, gs.drop (k + 1), ?_, fun g' => ?_, List.eraseIdx_eq_take_drop_succ gs k⟩
  · rw [List.getElem_cons_drop, List.take_append_drop]
  · exact List.set_eq_take_append_cons_drop.trans (if_pos hlt)

namespace Conserved
variable {k : ℕ} {g : Guard} (h : Conserved c i s)
include h

theorem held_nodup : s.held.Nodup := h.pool.out_nodup

/-- What a transaction has allocated is not live. -/
theorem alloc_not_live {o : Obj} (hg : g ∈ s.guards) (ho : o ∈ g.allocStack) : o ∉ s.live :=
  fun hlive => (List.nodup_append.mp h.held_nodup).2.2 o (List.mem_flatMap.mpr ⟨g, hg, ho⟩) o hlive
    rfl

/-- The facts about one guard and about the others. -/
theorem split {a b : List Guard} (hgs : s.guards = a ++ g :: b) :
    s.held.Perm (g.allocStack ++ ((a ++ b).flatMap Guard.allocStack ++ s.live)) ∧
    (g.freeStack ++ (a ++ b).flatMap Guard.freeStack).Nodup ∧
    (∀ o ∈ g.freeStack, o ∈ s.live) ∧ (∀ o ∈ (a ++ b).flatMap Guard.freeStack, o ∈ s.live) ∧
    (g.allocStack.length ≤ maxCount ∧ g.freeStack.length ≤ maxCount) ∧
    ∀ g' ∈ a ++ b, g'.allocStack.length ≤ maxCount ∧ g'.freeStack.length ≤ maxCount := by
  have hperm : ∀ f : Guard → List Obj, (s.guards.flatMap f).Perm (f g ++ (a ++ b).flatMap f) := by
    intro f
    rw [hgs]
    exact (List.perm_middle.flatMap_right f).trans (by rw [List.flatMap_cons])
  have hfreeing := hperm Guard.freeStack
  refine ⟨?_, hfreeing.nodup_iff.mp h.freeing_nodup, fun o ho => ?_, fun o ho => ?_, ?_, ?_⟩
  · rw [← List.append_assoc]
    exact (hperm Guard.allocStack).append_right _
  · exact h.freeing_live o (hfreeing.mem_iff.mpr (List.mem_append_left _ ho))
  · exact h.freeing_live o (hfreeing.mem_iff.mpr (List.mem_append_right _ ho))
  · exact h.small g (by rw [hgs]; simp)
  · intro g' hg'
    refine h.small g' ?_
    rw [hgs]
    simp only [List.mem_append, List.mem_cons] at hg' ⊢
    exact hg'.imp_right .inr

end Conserved

/-- A guard is written, and `out` is what the others and the callers hold. -/
theorem conserved_of_split {p : RcuPool n} {gs a b : List Guard} {g : Guard} {live : List Obj}
    (hgs : gs = a ++ g :: b)
    (hpool : Stocked c i (a.length + b.length + 1)
      (g.allocStack ++ ((a ++ b).flatMap Guard.allocStack ++ live)) p)
    (hnodup : (g.freeStack ++ (a ++ b).flatMap Guard.freeStack).Nodup)
    (hlive : ∀ o ∈ g.freeStack, o ∈ live)
    (hrest : ∀ o ∈ (a ++ b).flatMap Guard.freeStack, o ∈ live)
    (hsmall : g.allocStack.length ≤ maxCount ∧ g.freeStack.length ≤ maxCount)
    (hothers : ∀ g' ∈ a ++ b, g'.allocStack.length ≤ maxCount ∧ g'.freeStack.length ≤ maxCount) :
    Conserved c i ⟨p, gs, live⟩ := by
  subst hgs
  have hperm : ∀ f : Guard → List Obj,
      ((a ++ g :: b).flatMap f).Perm (f g ++ (a ++ b).flatMap f) := fun f =>
    (List.perm_middle.flatMap_right f).trans (by rw [List.flatMap_cons])
  have hlen : (a ++ g :: b).length = a.length + b.length + 1 := by
    rw [List.length_append, List.length_cons]
    rfl
  have hfreeing := hperm Guard.freeStack
  refine ⟨?_, hfreeing.nodup_iff.mpr hnodup, fun o ho => ?_, fun g' hg' => ?_⟩
  · show Stocked c i (a ++ g :: b).length _ p
    rw [hlen]
    refine hpool.perm ?_
    rw [← List.append_assoc]
    exact (hperm Guard.allocStack).symm.append_right _
  · rcases List.mem_append.mp (hfreeing.mem_iff.mp ho) with ho | ho
    · exact hlive o ho
    · exact hrest o ho
  · have hg'' : g' ∈ a ++ g :: b := hg'
    simp only [List.mem_append, List.mem_cons] at hg''
    rcases hg'' with ha | rfl | hb
    · exact hothers g' (List.mem_append_left _ ha)
    · exact hsmall
    · exact hothers g' (List.mem_append_right _ hb)

namespace Conserved
variable {k : ℕ} {g : Guard} (h : Conserved c i s)
include h

theorem enter : ∃ t, s.act c i .enter = some t ∧ Conserved c i t :=
  ⟨_, rfl, h.pool.fix, h.freeing_nodup, h.freeing_live, fun g hg => by
    rcases List.mem_cons.mp hg with rfl | hg
    · exact ⟨Nat.zero_le _, Nat.zero_le _⟩
    · exact h.small g hg⟩

/-- A new object is not held by anyone, so the assertions on it hold. -/
theorem guardAlloc (hk : s.guards[k]? = some g) (malloc : Bool) :
    ∃ ret p g', g.alloc c i s.pool malloc = some (ret, p, g') ∧
      Conserved c i { s with pool := p, guards := s.guards.set k g' } ∧
      ∀ o, ret = some o → o ∉ s.live ∧
        (∀ g ∈ s.guards, o ∉ g.allocStack ∧ o ∉ g.freeStack) ∧
        (o ∈ waiting i s.pool.rcu →
          ∃ time < s.pool.rcu.reusableTime, s.pool.rcu.Removed o time) := by
  obtain ⟨a, b, hgs, hset, -⟩ := guards_split hk
  obtain ⟨hheld, hnodup, hlive, hrest, hsmall, hothers⟩ := h.split hgs
  have hlen : s.guards.length = a.length + b.length + 1 := by
    rw [hgs, List.length_append, List.length_cons]
    rfl
  obtain ⟨ret, q, halloc, hstock, hreusable⟩ := h.pool.alloc malloc
  rw [hlen] at hstock
  unfold Guard.alloc
  rw [halloc]
  cases ret with
  | none =>
    refine ⟨none, q, g, rfl, ?_, fun o ho => by cases ho⟩
    exact conserved_of_split (hset _) (hstock.perm hheld) hnodup hlive hrest hsmall hothers
  | some o =>
    have hnew : o ∉ s.held := (List.nodup_cons.mp hstock.out_nodup).1
    have hnotLive : o ∉ s.live := fun ho => hnew (List.mem_append_right _ ho)
    have hnone : ∀ g ∈ s.guards, o ∉ g.allocStack ∧ o ∉ g.freeStack := fun g hg =>
      ⟨fun ho => hnew (List.mem_append_left _ (List.mem_flatMap.mpr ⟨g, hg, ho⟩)),
        fun ho => hnotLive (h.freeing_live o (List.mem_flatMap.mpr ⟨g, hg, ho⟩))⟩
    have hassert : ¬ (o ∈ g.allocStack ∨ o ∈ g.freeStack) := by
      have hg := hnone g (List.mem_of_getElem? hk)
      exact fun ho => ho.elim hg.1 hg.2
    dsimp only
    rw [if_neg hassert]
    split
    · rename_i hroom
      refine ⟨some o, q, _, rfl, ?_, ?_⟩
      · exact conserved_of_split (hset _) (hstock.perm (hheld.cons o)) hnodup hlive hrest
          ⟨hroom, hsmall.2⟩ hothers
      · intro o' ho
        obtain rfl := Option.some.inj ho
        exact ⟨hnotLive, hnone, hreusable o rfl⟩
    · refine ⟨none, q.free i o, g, rfl, ?_, fun o ho => by cases ho⟩
      have hfree : Stocked c i (a.length + b.length + 1) s.held (q.free i o) :=
        Stocked.free hstock
      exact conserved_of_split (hset _) (hfree.perm hheld) hnodup hlive hrest hsmall hothers

theorem alloc (hk : k < s.guards.length) (malloc : Bool) :
    ∃ t, s.act c i (.alloc k malloc) = some t ∧ Conserved c i t := by
  have hg := List.getElem?_eq_getElem hk
  obtain ⟨ret, p, g', halloc, hconserved, -⟩ := h.guardAlloc hg malloc
  refine ⟨_, ?_, hconserved⟩
  rw [System.act, hg, Option.bind_some, halloc]
  rfl

theorem free {o : Obj} (hk : k < s.guards.length) (ho : o ∈ s.live)
    (hfresh : ∀ g ∈ s.guards, o ∉ g.freeStack) :
    ∃ t, s.act c i (.free k o) = some t ∧ Conserved c i t := by
  have hg := List.getElem?_eq_getElem hk
  generalize s.guards[k] = g at hg
  have hmem : g ∈ s.guards := List.mem_of_getElem? hg
  obtain ⟨a, b, hgs, hset, -⟩ := guards_split hg
  obtain ⟨hheld, hnodup, hlive, hrest, hsmall, hothers⟩ := h.split hgs
  have hpool := h.pool.perm hheld
  rw [hgs, List.length_append, List.length_cons] at hpool
  have hassert : ¬ (o ∈ g.allocStack ∨ o ∈ g.freeStack) := fun h' =>
    h'.elim (fun ha => h.alloc_not_live hmem ha ho) (hfresh g hmem)
  rw [System.act, hg, Option.bind_some, Guard.free, if_neg hassert]
  split
  · rename_i hroom
    refine ⟨_, rfl, ?_⟩
    refine conserved_of_split (hset _) hpool ?_ ?_ hrest ⟨hsmall.1, hroom⟩ hothers
    · refine List.nodup_cons.mpr ⟨fun hin => ?_, hnodup⟩
      have hfreeing : o ∈ s.freeing := by
        rw [System.freeing, hgs]
        exact (List.perm_middle.flatMap_right _).mem_iff.mpr hin
      obtain ⟨g', hg', ho'⟩ := List.mem_flatMap.mp hfreeing
      exact hfresh g' hg' ho'
    · intro o' ho'
      rcases List.mem_cons.mp ho' with rfl | ho'
      · exact ho
      · exact hlive o' ho'
  · refine ⟨_, rfl, ?_⟩
    exact conserved_of_split (hset _) hpool hnodup hlive hrest hsmall hothers

/-- The committed objects are live, and the freed ones wait. -/
theorem commit (hk : k < s.guards.length) :
    ∃ t, s.act c i (.commit k) = some t ∧ Conserved c i t := by
  have hg := List.getElem?_eq_getElem hk
  generalize s.guards[k] = g at hg
  obtain ⟨a, b, hgs, hset, -⟩ := guards_split hg
  obtain ⟨hheld, hnodup, hlive, hrest, hsmall, hothers⟩ := h.split hgs
  obtain ⟨hown, hfreeing, hapart⟩ := List.nodup_append.mp hnodup
  have hpool := h.pool.perm hheld
  rw [hgs, List.length_append, List.length_cons] at hpool
  have hdiff : (g.freeStack ++ (g.allocStack ++ s.live).diff g.freeStack).Perm
      (g.allocStack ++ s.live) := by
    refine List.subperm_append_diff_self_of_count_le fun o ho => ?_
    rw [List.count_eq_one_of_mem hown ho]
    exact List.count_pos_iff.mpr (List.mem_append_right _ (hlive o ho))
  have hmoved : (g.allocStack ++ ((a ++ b).flatMap Guard.allocStack ++ s.live)).Perm
      (g.freeStack ++ ((a ++ b).flatMap Guard.allocStack ++
        (g.allocStack ++ s.live).diff g.freeStack)) := by
    rw [← Multiset.coe_eq_coe] at hdiff ⊢
    simp only [← Multiset.coe_add] at hdiff ⊢
    rw [add_left_comm, ← hdiff, add_left_comm]
  rw [System.act, hg]
  refine ⟨_, rfl, ?_⟩
  refine conserved_of_split (hset _) (hpool.perm hmoved).freeAll hfreeing
    (fun o ho => by cases ho) ?_ ⟨Nat.zero_le _, Nat.zero_le _⟩ hothers
  intro o ho
  refine List.mem_diff_of_mem (List.mem_append_right _ (hrest o ho)) fun ho' => ?_
  exact hapart o ho' o ho rfl

/-- `rollback` leaves an empty guard, and what it had allocated waits. -/
theorem rollbackStocked {a b : List Guard} (hgs : s.guards = a ++ g :: b) :
    Stocked c i (a.length + b.length + 1) ((a ++ b).flatMap Guard.allocStack ++ s.live)
      (g.rollback i s.pool).1 := by
  have hpool := h.pool.perm (h.split hgs).1
  rw [hgs, List.length_append, List.length_cons] at hpool
  exact hpool.freeAll

theorem rollback (hk : k < s.guards.length) :
    ∃ t, s.act c i (.rollback k) = some t ∧ Conserved c i t := by
  have hg := List.getElem?_eq_getElem hk
  generalize s.guards[k] = g at hg
  obtain ⟨a, b, hgs, hset, -⟩ := guards_split hg
  obtain ⟨-, hnodup, -, hrest, -, hothers⟩ := h.split hgs
  rw [System.act, hg]
  refine ⟨_, rfl, ?_⟩
  exact conserved_of_split (hset _) (h.rollbackStocked hgs) (List.nodup_append.mp hnodup).2.1
    (fun o ho => by cases ho) hrest ⟨Nat.zero_le _, Nat.zero_le _⟩ hothers

theorem leave (hk : k < s.guards.length) :
    ∃ t, s.act c i (.leave k) = some t ∧ Conserved c i t := by
  have hg := List.getElem?_eq_getElem hk
  generalize s.guards[k] = g at hg
  obtain ⟨a, b, hgs, -, herase⟩ := guards_split hg
  obtain ⟨-, hnodup, -, hrest, -, hothers⟩ := h.split hgs
  rw [System.act, hg]
  refine ⟨_, rfl, ?_⟩
  rw [herase]
  have hpool := (h.rollbackStocked hgs).unfix
  rw [← List.length_append] at hpool
  exact ⟨hpool, (List.nodup_append.mp hnodup).2.1, hrest, hothers⟩

/-- The guards and the live objects are not touched. -/
theorem setPool {p : RcuPool n} (hpool : Stocked c i s.guards.length s.held p) :
    Conserved c i { s with pool := p } :=
  ⟨hpool, h.freeing_nodup, h.freeing_live, h.small⟩

theorem step {a : Label} (henabled : s.Enabled a) :
    ∃ t, s.act c i a = some t ∧ Conserved c i t := by
  cases a with
  | enter => exact h.enter
  | alloc k malloc => exact h.alloc henabled malloc
  | free k o => exact h.free henabled.1 henabled.2.1 henabled.2.2
  | commit k => exact h.commit henabled
  | rollback k => exact h.rollback henabled
  | leave k => exact h.leave henabled
  | update => exact ⟨_, rfl, h.setPool h.pool.updateReusableTime⟩
  | aging => exact ⟨_, rfl, h.setPool h.pool.aging⟩
  | reclaimToPool =>
    obtain ⟨q, heq, hq, -⟩ := h.pool.reclaimToPool
    refine ⟨{ s with pool := q }, ?_, h.setPool hq⟩
    rw [System.act, heq]
    rfl

/-- Without open guards and live objects, everything can be reclaimed. -/
theorem drains (hlive : s.live = []) (hguards : s.guards = []) :
    ∃ p, (s.pool.aging i).reclaimToPool i = some p ∧ p.allFree c = true := by
  have hheld : s.held = [] := by
    rw [System.held, hguards, hlive]
    rfl
  have hidle := h.pool.timed.idle (by rw [hguards]; rfl)
  obtain ⟨q, heq, hq, hempty⟩ := h.pool.aging.reclaimToPool
  refine ⟨q, heq, hq.allFree (hempty ?_) hheld⟩
  exact drainable_aging h.pool.timed.even hidle h.pool.dated

end Conserved

/-- No call of the transactions fails an assertion; an allocation gives an object that is not in use
and that, if it was freed before, may be reused; a transaction holds a bounded number of objects;
and a pool that nobody uses gets all its units back. -/
theorem rcuPool_conserves {xs : List Label}
    (hrun : Run (restrict (fun s a t => s.act c i a = some t) System.Enabled) (create n) xs s) :
    (∀ a, s.Enabled a → ∃ t, s.act c i a = some t) ∧
    (∀ (k : ℕ) (g : Guard) (malloc : Bool), s.guards[k]? = some g → ∃ ret p g',
      g.alloc c i s.pool malloc = some (ret, p, g') ∧ ∀ o, ret = some o →
        o ∉ s.live ∧ (∀ g ∈ s.guards, o ∉ g.allocStack ∧ o ∉ g.freeStack) ∧
        (o ∈ waiting i s.pool.rcu →
          ∃ time < s.pool.rcu.reusableTime, s.pool.rcu.Removed o time)) ∧
    (∀ g ∈ s.guards, g.allocStack.length ≤ maxCount ∧ g.freeStack.length ≤ maxCount) ∧
    (s.live = [] → s.guards = [] →
      ∃ p, (s.pool.aging i).reclaimToPool i = some p ∧ p.allFree c = true) := by
  have h : Conserved c i s := hrun.invariant (fun s a t hst h => by
    obtain ⟨u, hu, hconserved⟩ := h.step hst.2
    obtain rfl := Option.some.inj (hst.1.symm.trans hu)
    exact hconserved) (conserved_create c i)
  refine ⟨fun a ha => ?_, fun k g malloc hk => ?_, h.small, h.drains⟩
  · obtain ⟨t, ht, -⟩ := h.step ha
    exact ⟨t, ht⟩
  · obtain ⟨ret, p, g', heq, -, hnew⟩ := h.guardAlloc hk malloc
    exact ⟨ret, p, g', heq, hnew⟩

/-- Two units in a chunk. -/
def pairConfig : Config := ⟨16, 32, by decide, by decide⟩

/-- An object is allocated, and freed beside one whose allocation is rolled back. -/
def freeLabels : List Label :=
  [.enter, .alloc 0 true, .commit 0, .leave 0, .enter, .free 0 (0, 16), .enter, .alloc 0 true,
    .leave 0, .commit 0, .leave 0]

instance (s : System n) : DecidablePred s.Enabled := fun a => by
  cases a <;> unfold System.Enabled <;> infer_instance

theorem freeLabels_freed : ∃ s : System 2,
    Run (restrict (fun s a t => s.act pairConfig 0 a = some t) System.Enabled) (create 2)
      freeLabels s ∧
    ∃ p, (s.pool.aging 0).reclaimToPool 0 = some p ∧ p.allFree pairConfig = true := by
  obtain ⟨s, hrun, hend⟩ := exists_run_acts (System.act pairConfig (0 : Fin 2))
    (fun s a => decide (s.Enabled a)) (create 2) freeLabels (fun s => (s.live, s.guards.length))
    (show _ = some (freeLabels, [], 0) by decide +kernel)
  obtain ⟨hlive, hguards⟩ := Prod.mk.inj hend
  have hrun' : Run (restrict (fun s a t => s.act pairConfig 0 a = some t) System.Enabled) (create 2)
      freeLabels s := hrun.mono fun s a t hst => ⟨hst.1, of_decide_eq_true hst.2⟩
  exact ⟨s, hrun', (rcuPool_conserves hrun').2.2.2 hlive (List.length_eq_zero_iff.mp hguards)⟩

end YwStorage.RcuPool

import YwStorage.Lib.Run
import YwStorage.Lib.Slots

/-!
The guard of `ywmempool.h`, which gives back to a pool what was taken from it unless the taking is
committed. The pool is any object that answers `alloc` and `free_mem`; `none` stands for an access
outside `mems`.
-/
namespace YwStorage.PoolGuard

/-- What the guard calls of a pool. -/
structure PoolCalls (π τ : Type*) where
  alloc : π → Option τ × π
  freeMem : π → τ → π

/-- `ywMemPoolGuard`, with the pool behind it. -/
structure Guard (π τ : Type*) where
  pool : π
  count : ℤ
  mems : ℕ → τ

variable {π τ : Type*}

namespace Guard
variable (P : PoolCalls π τ) (maxCount : ℕ) (g : Guard π τ)

def regist (target : τ) : Option (Bool × Guard π τ) :=
  if g.count ≥ maxCount then some (false, g)
  else if 0 ≤ g.count then
    some (true, { g with
      mems := Function.update g.mems g.count.toNat target
      count := g.count + 1 })
  else none

def alloc : Option (Option τ × Guard π τ) :=
  match P.alloc g.pool with
  | (none, pool) => some (none, { g with pool })
  | (some ret, pool) => do
    let (ok, g) ← Guard.regist maxCount { g with pool } ret
    if ok then some (some ret, g) else some (none, { g with pool := P.freeMem g.pool ret })

def commit : Guard π τ := { g with count := 0 }

/-- `while (count--) pool->free_mem(mems[count])` from `count = n` on, with the objects that it
gives back. -/
def rollbackLoop : ℕ → Guard π τ → Option (List τ × Guard π τ)
  | 0, g => some ([], { g with count := -1 })
  | n + 1, g =>
    if n < maxCount then do
      let (given, g') ← rollbackLoop n
        { g with count := n, pool := P.freeMem g.pool (g.mems n) }
      some (g.mems n :: given, g')
    else none

/-- `rollback`, also called by the destructor. -/
def rollback : Option (List τ × Guard π τ) :=
  if g.count > 0 then rollbackLoop P maxCount g.count.toNat g else some ([], g)

end Guard

inductive Call (τ : Type*)
  | alloc
  | regist (target : τ)
  | commit
  | rollback

/-- What a call returns, and what `rollback` gives back to the pool. -/
inductive Reply (τ : Type*)
  | alloc (ret : Option τ)
  | regist (ok : Bool)
  | commit
  | rollback (given : List τ)

/-- The guard beside the objects obtained or registered since the last `commit` or `rollback`, and
whether a `rollback` since the last `commit` has given something back. -/
structure State (π τ : Type*) where
  guard : Guard π τ
  held : List τ
  spent : Bool

def initial (pool : π) (mems : ℕ → τ) : State π τ := ⟨⟨pool, 0, mems⟩, [], false⟩

namespace State
variable (P : PoolCalls π τ) (maxCount : ℕ) (s : State π τ)

def act : Call τ → Option (Reply τ × State π τ)
  | .alloc => (s.guard.alloc P maxCount).map fun r =>
    (.alloc r.1, { s with guard := r.2, held := s.held ++ r.1.toList })
  | .regist target => (s.guard.regist maxCount target).map fun r =>
    (.regist r.1, { s with guard := r.2, held := if r.1 then s.held ++ [target] else s.held })
  | .commit => some (.commit, ⟨s.guard.commit, [], false⟩)
  | .rollback => (s.guard.rollback P maxCount).map fun r =>
    (.rollback r.1, ⟨r.2, [], s.spent || !s.held.isEmpty⟩)

/-- A call as it should be: NULL exactly if the guard is full or the pool is exhausted, what is held
is given back with each object once, and nothing else is given back to the pool. -/
def Right (s' : State π τ) : Reply τ → Prop
  | .alloc ret =>
    (ret = none ↔ s.held.length = maxCount ∨ (P.alloc s.guard.pool).1 = none) ∧
      match P.alloc s.guard.pool with
      | (none, pool) => s'.guard.pool = pool
      | (some o, pool) =>
        s'.guard.pool = if s.held.length = maxCount then P.freeMem pool o else pool
  | .regist ok => (ok = true ↔ s.held.length < maxCount) ∧ s'.guard.pool = s.guard.pool
  | .commit => s'.guard.pool = s.guard.pool
  | .rollback given =>
    given = s.held.reverse ∧ s'.guard.pool = given.foldl P.freeMem s.guard.pool

/-- Nothing is registered in a guard that has been rolled back and not been committed since. -/
def Fresh : Call τ → Prop
  | .alloc => s.spent = true → (P.alloc s.guard.pool).1 = none
  | .regist _ => s.spent = false
  | .commit | .rollback => True

/-- A call stays inside `mems` and does what it should. -/
def Served (a : Call τ) : Prop :=
  ∃ r s', s.act P maxCount a = some (r, s') ∧ s.Right P maxCount s' r

end State

/-- A call that returns. -/
def Step (P : PoolCalls π τ) (maxCount : ℕ) (s : State π τ) (x : Call τ × Reply τ)
    (t : State π τ) : Prop := s.act P maxCount x.1 = some (x.2, t)

/-- `mems` holds what is held; `rollback` leaves `count` at -1. -/
structure Inv (maxCount : ℕ) (s : State π τ) : Prop where
  mems : Slots.Reads s.guard.mems 0 s.held
  room : s.held.length ≤ maxCount
  count : s.guard.count = if s.spent then -1 else (s.held.length : ℤ)
  spent : s.spent = true → s.held = []

section Inv
variable {P : PoolCalls π τ} {maxCount : ℕ} {s t : State π τ} {g : Guard π τ} {pool : π} {o : τ}
  {l : List τ} {a : Call τ} {xs : List (Call τ × Reply τ)}

theorem inv_initial (maxCount : ℕ) (pool : π) (mems : ℕ → τ) :
    Inv maxCount (initial pool mems) :=
  ⟨trivial, Nat.zero_le _, rfl, fun h => by cases h⟩

theorem rollbackLoop_eq (hmems : Slots.Reads g.mems 0 l) (hroom : l.length ≤ maxCount) :
    Guard.rollbackLoop P maxCount l.length g = some (l.reverse,
      { g with count := -1, pool := l.reverse.foldl P.freeMem g.pool }) := by
  induction l using List.reverseRecOn generalizing g with
  | nil => rfl
  | append_singleton l o ih =>
    rw [Slots.reads_append, Slots.reads_cons, Nat.zero_add] at hmems
    rw [List.length_append, List.length_singleton] at hroom ⊢
    have hrest := ih (g := ⟨P.freeMem g.pool (g.mems l.length), l.length, g.mems⟩) hmems.1
      (by omega)
    rw [Guard.rollbackLoop, if_pos (by omega), hrest, hmems.2.1]
    simp

theorem Inv.rollback_eq (h : Inv maxCount s) : s.guard.rollback P maxCount = some (s.held.reverse,
    { s.guard with
      count := if s.held.isEmpty then s.guard.count else -1
      pool := s.held.reverse.foldl P.freeMem s.guard.pool }) := by
  have hcount := h.count
  by_cases hheld : s.held.isEmpty = true
  · have hnil := List.isEmpty_iff.mp hheld
    have hle : ¬s.guard.count > 0 := by
      rw [hcount, hnil]
      split <;> simp
    rw [Guard.rollback, if_neg hle, hnil]
    rfl
  · have hne : s.held ≠ [] := mt List.isEmpty_iff.mpr hheld
    have hspent : ¬s.spent = true := mt h.spent hne
    have hpos := List.length_pos_iff.mpr hne
    rw [if_neg hspent] at hcount
    rw [Guard.rollback, if_pos (by omega), hcount, Int.toNat_natCast,
      rollbackLoop_eq h.mems h.room, if_neg hheld]

/-- A guard that is not spent takes an object as long as it is not full. -/
theorem Inv.regist_eq (h : Inv maxCount s) (hspent : s.spent = false) (o : τ) (pool : π) :
    Guard.regist maxCount { s.guard with pool } o =
      if s.held.length < maxCount then
        some (true, ⟨pool, s.held.length + 1, Function.update s.guard.mems s.held.length o⟩)
      else some (false, { s.guard with pool }) := by
  have hcount := h.count
  rw [hspent, if_neg Bool.false_ne_true] at hcount
  rw [Guard.regist]
  by_cases hfull : s.held.length < maxCount
  · simp only [hcount]
    rw [if_neg (by omega), if_pos (by omega), if_pos hfull, Int.toNat_natCast]
  · simp only [hcount]
    rw [if_pos (by omega), if_neg hfull]

/-- A spent guard writes to `mems[-1]`. -/
theorem Inv.regist_spent (h : Inv maxCount s) (hspent : s.spent = true) (o : τ) (pool : π) :
    Guard.regist maxCount { s.guard with pool } o = none := by
  have hcount := h.count
  rw [if_pos hspent] at hcount
  rw [Guard.regist]
  simp only [hcount]
  rw [if_neg (by omega), if_neg (by omega)]

theorem Inv.push (h : Inv maxCount s) (hspent : s.spent = false)
    (hroom : s.held.length < maxCount) (o : τ) (pool : π) : Inv maxCount
      ⟨⟨pool, s.held.length + 1, Function.update s.guard.mems s.held.length o⟩, s.held ++ [o],
        s.spent⟩ := by
  refine ⟨?_, ?_, ?_, fun hs => ?_⟩
  · rw [Slots.reads_append, Slots.reads_cons, Nat.zero_add]
    refine ⟨h.mems.congr fun i _ hi => ?_, Function.update_self .., trivial⟩
    exact Function.update_of_ne (by omega) _ _
  · rw [List.length_append, List.length_singleton]
    exact hroom
  · rw [hspent, if_neg Bool.false_ne_true, List.length_append, List.length_singleton]
    rfl
  · rw [hspent] at hs
    cases hs

theorem Inv.setPool (h : Inv maxCount s) (pool : π) :
    Inv maxCount { s with guard := { s.guard with pool } } :=
  ⟨h.mems, h.room, h.count, h.spent⟩

/-- The call returns as it should and keeps the invariant. -/
def Kept (P : PoolCalls π τ) (maxCount : ℕ) (s : State π τ) (a : Call τ) : Prop :=
  ∃ r t, s.act P maxCount a = some (r, t) ∧ s.Right P maxCount t r ∧ Inv maxCount t

theorem kept_commit : Kept P maxCount s .commit :=
  ⟨_, _, rfl, rfl, trivial, Nat.zero_le _, rfl, fun hs => by cases hs⟩

theorem Inv.kept_rollback (h : Inv maxCount s) : Kept P maxCount s .rollback := by
  have hact : s.act P maxCount .rollback = some (.rollback s.held.reverse, ⟨{ s.guard with
      count := if s.held.isEmpty then s.guard.count else -1
      pool := s.held.reverse.foldl P.freeMem s.guard.pool }, [], s.spent || !s.held.isEmpty⟩) := by
    rw [State.act, h.rollback_eq]
    rfl
  refine ⟨_, _, hact, ⟨rfl, rfl⟩, trivial, Nat.zero_le _, ?_, fun _ => rfl⟩
  have hcount := h.count
  cases hheld : s.held with
  | nil =>
    rw [hheld] at hcount
    simpa using hcount
  | cons o l => simp

theorem Inv.kept_regist (h : Inv maxCount s) (hspent : s.spent = false) (o : τ) :
    Kept P maxCount s (.regist o) := by
  have hreg := h.regist_eq hspent o s.guard.pool
  by_cases hroom : s.held.length < maxCount
  · have hact : s.act P maxCount (.regist o) = some (.regist true, ⟨⟨s.guard.pool,
        s.held.length + 1, Function.update s.guard.mems s.held.length o⟩, s.held ++ [o],
        s.spent⟩) := by
      rw [if_pos hroom] at hreg
      rw [State.act, hreg]
      rfl
    exact ⟨_, _, hact, ⟨by simpa using hroom, rfl⟩, h.push hspent hroom o s.guard.pool⟩
  · have hact : s.act P maxCount (.regist o) = some (.regist false, s) := by
      rw [if_neg hroom] at hreg
      rw [State.act, hreg]
      rfl
    exact ⟨_, _, hact, ⟨by simpa using hroom, rfl⟩, h⟩

/-- A pool that is exhausted is asked in vain. -/
theorem Inv.kept_alloc_exhausted (h : Inv maxCount s)
    (hpool : P.alloc s.guard.pool = (none, pool)) : Kept P maxCount s .alloc := by
  have hact : s.act P maxCount .alloc =
      some (.alloc none, { s with guard := { s.guard with pool } }) := by
    rw [State.act, Guard.alloc, hpool]
    simp
  refine ⟨_, _, hact, ?_, h.setPool pool⟩
  simp [State.Right, hpool]

theorem Inv.kept_alloc (h : Inv maxCount s) (hspent : s.spent = false)
    (hpool : P.alloc s.guard.pool = (some o, pool)) : Kept P maxCount s .alloc := by
  have hreg := h.regist_eq hspent o pool
  by_cases hroom : s.held.length < maxCount
  · have hact : s.act P maxCount .alloc = some (.alloc (some o), ⟨⟨pool, s.held.length + 1,
        Function.update s.guard.mems s.held.length o⟩, s.held ++ [o], s.spent⟩) := by
      rw [State.act, Guard.alloc, hpool]
      simp [hreg, hroom]
    refine ⟨_, _, hact, ?_, h.push hspent hroom o pool⟩
    simp [State.Right, hpool, Nat.ne_of_lt hroom]
  · have hmax : s.held.length = maxCount := Nat.le_antisymm h.room (Nat.le_of_not_lt hroom)
    have hact : s.act P maxCount .alloc = some (.alloc none,
        { s with guard := { s.guard with pool := P.freeMem pool o } }) := by
      rw [State.act, Guard.alloc, hpool]
      simp [hreg, hroom]
    refine ⟨_, _, hact, ?_, h.setPool (P.freeMem pool o)⟩
    simp [State.Right, hpool, hmax]

theorem Inv.stuck_alloc (h : Inv maxCount s) (hspent : s.spent = true)
    (hpool : P.alloc s.guard.pool = (some o, pool)) : s.act P maxCount .alloc = none := by
  have hreg := h.regist_spent hspent o pool
  rw [State.act, Guard.alloc, hpool]
  simp [hreg]

/-- Every call that registers nothing in a spent guard is served and keeps the invariant. -/
theorem Inv.kept_of_fresh (h : Inv maxCount s) (hfresh : s.Fresh P a) : Kept P maxCount s a := by
  cases a with
  | alloc =>
    rcases hpool : P.alloc s.guard.pool with ⟨_ | o, pool⟩
    · exact h.kept_alloc_exhausted hpool
    · have hspent : s.spent = false := by
        rw [State.Fresh, hpool] at hfresh
        simpa using hfresh
      exact h.kept_alloc hspent hpool
  | regist o => exact h.kept_regist hfresh o
  | commit => exact kept_commit
  | rollback => exact h.kept_rollback

theorem Inv.stuck_of_stale (h : Inv maxCount s) (hstale : ¬s.Fresh P a) :
    s.act P maxCount a = none := by
  cases a with
  | alloc =>
    rw [State.Fresh, Classical.not_imp] at hstale
    obtain ⟨hspent, hne⟩ := hstale
    rcases hpool : P.alloc s.guard.pool with ⟨_ | o, pool⟩
    · rw [hpool] at hne
      exact absurd rfl hne
    · exact h.stuck_alloc hspent hpool
  | regist o =>
    have hspent : s.spent = true := by simpa [State.Fresh] using hstale
    rw [State.act, h.regist_spent hspent o s.guard.pool]
    rfl
  | commit => exact absurd trivial hstale
  | rollback => exact absurd trivial hstale

/-- Up to the first object that is registered after a `rollback` without a `commit`, every access
is inside `mems` and the guard gives back exactly what it holds. -/
theorem guard_law {pool : π} {mems : ℕ → τ}
    (h : Lts.Run (Lts.restrict (Step P maxCount) fun s x => s.Fresh P x.1) (initial pool mems) xs s)
    (a : Call τ) : s.Served P maxCount a ↔ s.Fresh P a := by
  have hinv : Inv maxCount s := by
    refine h.invariant (fun s x t hstep hs => ?_) (inv_initial maxCount pool mems)
    obtain ⟨r, t', hact, -, ht⟩ := hs.kept_of_fresh hstep.2
    obtain ⟨-, rfl⟩ := Prod.mk.inj (Option.some.inj (hact.symm.trans hstep.1))
    exact ht
  constructor
  · rintro ⟨r, t, hact, -⟩
    by_contra hstale
    rw [hinv.stuck_of_stale hstale] at hact
    cases hact
  · intro hfresh
    obtain ⟨r, t, hact, hright, -⟩ := hinv.kept_of_fresh hfresh
    exact ⟨r, t, hact, hright⟩

end Inv

/-- A pool of the numbers that are not in use. -/
def listPool : PoolCalls (List ℕ) ℕ where
  alloc l := (l.head?, l.tail)
  freeMem l o := o :: l

/-- Two objects are taken and given back. -/
theorem two_objects_given_back :
    ∃ s, Lts.Run (Lts.restrict (Step listPool 16) fun s x => s.Fresh listPool x.1)
        (initial [1, 2, 3] fun _ => 0) [(.alloc, .alloc (some 1)), (.alloc, .alloc (some 2))] s ∧
      s.held = [1, 2] ∧ s.Served listPool 16 .rollback := by
  have hrun : Lts.Run (Lts.restrict (Step listPool 16) fun s x => s.Fresh listPool x.1)
      (initial [1, 2, 3] fun _ => 0) [(.alloc, .alloc (some 1)), (.alloc, .alloc (some 2))] _ :=
    .stepL ⟨rfl, fun h => by cases h⟩ (.single ⟨rfl, fun h => by cases h⟩)
  exact ⟨_, hrun, rfl, (guard_law hrun .rollback).mpr trivial⟩

/-- After a `rollback` the next object is written to `mems[-1]`. -/
theorem rolled_back_guard_overruns :
    ∃ s, Lts.Run (Step listPool 16) (initial [1, 2, 3] fun _ => 0)
        [(.alloc, .alloc (some 1)), (.rollback, .rollback [1])] s ∧ s.guard.count = -1 ∧
      s.act listPool 16 .alloc = none := by
  exact ⟨_, .stepL rfl (.single rfl), rfl, rfl⟩

end YwStorage.PoolGuard

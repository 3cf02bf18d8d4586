import YwStorage.Pool.Lists

/-!
Deferred reclamation of `ywrcuref.h`. A reader publishes the clock it started at, a freed object
waits in a ring that carries the clock of its removal, and a scan of all readers moves the time
below which rings may be reused.

The lists that run through the objects are taken as lists, and so is the pool of rings, which acts
on its lists as `ywPool` does. A ring is allocated whenever one is needed. The clock does not reach
the end of its 64 bits.
-/
namespace YwStorage.RcuRef
open Pool

/-- `ywrcu_free_ring`: the objects of `sub_list` and the clock of their removal. -/
structure FreeRing (α : Type) where
  items : List α
  removeTime : ℕ

/-- `init_ring`. -/
def initRing {α : Type} : FreeRing α := ⟨[], 2 ^ 64 - 1⟩

structure Slot (α : Type) where
  fixtime : ℕ
  ref : ℕ
  oldestRing : Option (FreeRing α)
  latestRing : FreeRing α

/-- `ywRcuRef` with `n` slots. -/
structure Rcu (n : ℕ) (α : Type) where
  globalTime : ℕ
  reusableTime : ℕ
  slot : Fin n → Slot α
  freeRingPool : ℕ → List (FreeRing α)

/-- `ywPool<ywrcu_free_ring>`. -/
def ringPool (n : ℕ) : Config := ⟨128, 192, n, by decide⟩

variable {n : ℕ} {α : Type}

def create (n : ℕ) (α : Type) : Rcu n α where
  globalTime := 2
  reusableTime := 2
  slot := fun _ => ⟨0, 0, none, initRing⟩
  freeRingPool := fun _ => []

namespace Rcu
variable (s : Rcu n α) (i : Fin n)

def setSlot (x : Slot α) : Rcu n α := { s with slot := Function.update s.slot i x }

@[simp] theorem slot_setSlot_self (x : Slot α) : (s.setSlot i x).slot i = x :=
  Function.update_self ..

theorem slot_setSlot_ne {i j : Fin n} (x : Slot α) (h : j ≠ i) :
    (s.setSlot i x).slot j = s.slot j :=
  Function.update_of_ne h ..

def setOldest (r : Option (FreeRing α)) : Rcu n α := s.setSlot i { s.slot i with oldestRing := r }

/-- The slot's own ring goes to the pool, with the present clock. -/
def changeRing : Rcu n α :=
  match (s.slot i).latestRing.items with
  | [] => s
  | items =>
    { s.setSlot i { s.slot i with latestRing := initRing } with
      freeRingPool := pushed (ringPool n) s.freeRingPool i ⟨items, s.globalTime⟩ }

theorem changeRing_nil (h : (s.slot i).latestRing.items = []) : s.changeRing i = s := by
  unfold changeRing
  rw [h]

theorem changeRing_of_ne (h : (s.slot i).latestRing.items ≠ []) :
    s.changeRing i = { s.setSlot i { s.slot i with latestRing := initRing } with
      freeRingPool := pushed (ringPool n) s.freeRingPool i
        ⟨(s.slot i).latestRing.items, s.globalTime⟩ } := by
  unfold changeRing
  split
  · rename_i hnil
    exact absurd hnil h
  · rfl

def registFreeObj (o : α) : Rcu n α :=
  let s := if (s.slot i).latestRing.removeTime < s.globalTime then s.changeRing i else s
  let ring := (s.slot i).latestRing
  s.setSlot i { s.slot i with latestRing := { ring with items := o :: ring.items } }

def isReusable (r : FreeRing α) : Bool := s.reusableTime > r.removeTime

/-- `free_ring_pool.pop()`. -/
def popRing : Option (FreeRing α) × Rcu n α :=
  let r := popped (ringPool n) s.freeRingPool i
  (r.1, { s with freeRingPool := r.2 })

/-- The ring at which `get_reusable_item` looks is in `oldest_ring` after this. -/
def nextRing : Rcu n α :=
  match (s.slot i).oldestRing with
  | some _ => s
  | none =>
    match s.popRing i with
    | (some r, t) => t.setOldest i (some r)
    | (none, t) =>
      let q := (t.changeRing i).popRing i
      q.2.setOldest i q.1

/-- The loop of `get_reusable_item`; `none` when the fuel is used up. -/
def reuseLoop : ℕ → Rcu n α → Option (Option α × Rcu n α)
  | 0, _ => none
  | fuel + 1, s =>
    let t := s.nextRing i
    match (t.slot i).oldestRing with
    | none => some (none, t)
    | some r =>
      if t.isReusable r then
        match r.items with
        | x :: items => some (some x, t.setOldest i (some { r with items }))
        -- the ring is freed
        | [] => reuseLoop fuel (t.setOldest i none)
      else some (none, t)

/-- Every turn of the loop but the last uses up a ring. -/
def reuseFuel : ℕ :=
  (s.freeRingPool i).length + (s.freeRingPool (ringPool n).sharedIdx).length + 3

def getReusableItem : Option (Option α × Rcu n α) := s.reuseLoop i (s.reuseFuel i)

/-- `fix` without interference. -/
def fix : Rcu n α :=
  let x := s.slot i
  if x.fixtime ≠ 0 then s.setSlot i { x with ref := x.ref + 1 }
  else s.setSlot i { x with fixtime := s.globalTime }

def unfix : Rcu n α :=
  let x := s.slot i
  if x.ref = 0 then s.setSlot i { x with fixtime := 0 } else s.setSlot i { x with ref := x.ref - 1 }

/-- A successful `lock`, which finds the clock even. -/
def lock : Rcu n α := { s with globalTime := s.globalTime ||| 1 }

def release : Rcu n α := { s with globalTime := s.globalTime + 1 }

/-- One turn of the scan in `update_reusable_time`. -/
def scanSlot (cur : ℕ) : ℕ :=
  let fixTime := (s.slot i).fixtime
  if fixTime ≠ 0 ∧ fixTime < cur then fixTime else cur

/-- `update_reusable_time` without interference. -/
def updateReusableTime : Rcu n α :=
  if s.globalTime % 2 = 0 then
    let t := s.lock
    let cur := (List.finRange n).foldl (fun cur k => t.scanSlot k cur) t.globalTime
    { t with reusableTime := cur }.release
  else s

def aging : Rcu n α :=
  let t := (s.changeRing i).updateReusableTime
  { t with
    freeRingPool := moved t.freeRingPool (ringPool n).sharedIdx i (ringPool n).privateCount }

end Rcu
end YwStorage.RcuRef

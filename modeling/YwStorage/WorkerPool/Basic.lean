import Mathlib

/-!
The worker pool of `ywworker.h`: threads that add tasks to a ring, workers that take and run them,
and a caller of `wait_to_idle`.

Memory is sequentially consistent and every step is one access of it. A task carries a ticket, the
number of its reservation in the ring; tickets and the logs of accepted, returned and finished tasks
are for the reader only, no step looks at them. `&NULL_ARG_PTR` is `none`.
-/
namespace YwStorage.WorkerPool

def maxQueueSize : ℕ := 64

structure Task (F A : Type*) where
  func : F
  arg : A
  ticket : ℕ
  deriving DecidableEq

/-- What a thread in `add_task` does next. -/
inductive Producer (F A : Type*)
  | idle
  | readEnd (func : F) (arg : A)
  | readBegin (func : F) (arg : A) (prev : ℕ)
  | reserve (func : F) (arg : A) (prev : ℕ)
  | putFunc (x : Task F A) (prev : ℕ)
  | putArg (x : Task F A) (prev : ℕ)
  deriving DecidableEq

/-- What a worker does next: `get_task` up to `advance`, then the loop of `work`. -/
inductive Worker (F A : Type*)
  | readBegin
  | readArg (prev : ℕ)
  | readFunc (prev : ℕ) (arg : A)
  | takeArg (prev : ℕ) (arg : A) (func : F)
  | clearFunc (prev : ℕ) (x : Task F A)
  | advance (prev : ℕ) (x : Task F A)
  | start (x : Task F A)
  | body (x : Task F A)
  | stop (x : Task F A)
  deriving DecidableEq

/-- What the caller of `wait_to_idle` does next. -/
inductive Caller
  | idle
  | readEnd
  | readBegin (queueEnd : ℕ)
  | scan (i ret : ℕ)
  | assertEnd
  | assertBegin (queueEnd : ℕ)
  | unblock
  | returned
  | failed
  deriving DecidableEq

/-- `n` is `MAX_THREAD_COUNT`. -/
structure Pool (π : Type*) (n : ℕ) (F A : Type*) where
  block : Bool
  queueBegin : ℕ
  queueEnd : ℕ
  funcs : ℕ → F
  args : ℕ → Option (A × ℕ)
  running : Fin n → Bool
  producer : π → Producer F A
  worker : Fin n → Worker F A
  caller : Caller
  tickets : ℕ
  accepted : List (Task F A)
  returned : List (Task F A)
  finished : List ℕ
  /-- The tickets accepted when `wait_to_idle` was called. -/
  due : List ℕ

inductive Label (π : Type*) (n : ℕ) (F A : Type*)
  | add (i : π) (func : F) (arg : A)
  | produce (i : π)
  | work (w : Fin n)
  | wait
  | watch
  deriving DecidableEq

namespace Pool
variable {π F A : Type*} {n : ℕ} [DecidableEq π] [DecidableEq F] [DecidableEq A] (nullFunc : F)
  (s : Pool π n F A)

def init : Pool π n F A where
  block := false
  queueBegin := 0
  queueEnd := 0
  funcs := fun _ => nullFunc
  args := fun _ => none
  running := fun _ => false
  producer := fun _ => .idle
  worker := fun _ => .readBegin
  caller := .idle
  tickets := 0
  accepted := []
  returned := []
  finished := []
  due := []

def setProducer (i : π) (pc : Producer F A) : Pool π n F A :=
  { s with producer := Function.update s.producer i pc }

def setWorker (w : Fin n) (pc : Worker F A) : Pool π n F A :=
  { s with worker := Function.update s.worker w pc }

@[simp] theorem setProducer_self (i : π) (pc : Producer F A) :
    (s.setProducer i pc).producer i = pc := Function.update_self ..

theorem setProducer_ne {i j : π} (h : j ≠ i) (pc : Producer F A) :
    (s.setProducer i pc).producer j = s.producer j := Function.update_of_ne h ..

@[simp] theorem setWorker_self (w : Fin n) (pc : Worker F A) :
    (s.setWorker w pc).worker w = pc := Function.update_self ..

theorem setWorker_ne {w v : Fin n} (h : v ≠ w) (pc : Worker F A) :
    (s.setWorker w pc).worker v = s.worker v := Function.update_of_ne h ..

/-- The call of `add_task`, up to the test of `block`. -/
def add (i : π) (func : F) (arg : A) : Pool π n F A :=
  match s.producer i with
  | .idle => if s.block then s else s.setProducer i (.readEnd func arg)
  | _ => s

def produce (i : π) : Pool π n F A :=
  match s.producer i with
  | .idle => s
  | .readEnd func arg => s.setProducer i (.readBegin func arg s.queueEnd)
  | .readBegin func arg prev =>
    if (prev + 1) % maxQueueSize = s.queueBegin then s.setProducer i .idle
    else s.setProducer i (.reserve func arg prev)
  | .reserve func arg prev =>
    if s.queueEnd = prev then
      { s.setProducer i (.putFunc ⟨func, arg, s.tickets⟩ prev) with
        queueEnd := (prev + 1) % maxQueueSize, tickets := s.tickets + 1 }
    else s.setProducer i (.readEnd func arg)
  | .putFunc x prev =>
    if s.funcs prev = nullFunc then
      { s.setProducer i (.putArg x prev) with funcs := Function.update s.funcs prev x.func }
    else s
  | .putArg x prev =>
    if s.args prev = none then
      { s.setProducer i .idle with
        args := Function.update s.args prev (some (x.arg, x.ticket)), accepted := x :: s.accepted }
    else s

def work (w : Fin n) : Pool π n F A :=
  match s.worker w with
  | .readBegin => s.setWorker w (.readArg s.queueBegin)
  | .readArg prev =>
    match s.args prev with
    | none => s.setWorker w .readBegin
    | some (arg, _) => s.setWorker w (.readFunc prev arg)
  | .readFunc prev arg => s.setWorker w (.takeArg prev arg (s.funcs prev))
  | .takeArg prev arg func =>
    match s.args prev with
    | none => s.setWorker w .readBegin
    | some (arg', ticket) =>
      -- the compare-and-swap sees the argument only
      if arg' = arg then
        { s.setWorker w (.clearFunc prev ⟨func, arg, ticket⟩) with
          args := Function.update s.args prev none }
      else s.setWorker w .readBegin
  | .clearFunc prev x =>
    if s.funcs prev = x.func then
      { s.setWorker w (.advance prev x) with funcs := Function.update s.funcs prev nullFunc }
    else s
  | .advance prev x =>
    if s.queueBegin = prev then
      { s.setWorker w (.start x) with
        queueBegin := (prev + 1) % maxQueueSize, returned := x :: s.returned }
    else s
  | .start x => { s.setWorker w (.body x) with running := Function.update s.running w true }
  | .body x => { s.setWorker w (.stop x) with finished := x.ticket :: s.finished }
  | .stop _ => { s.setWorker w .readBegin with running := Function.update s.running w false }

/-- The call of `wait_to_idle`. -/
def wait : Pool π n F A :=
  match s.caller with
  | .idle | .returned =>
    { s with block := true, caller := .readEnd, due := s.accepted.map Task.ticket }
  | _ => s

def watch : Pool π n F A :=
  match s.caller with
  | .readEnd => { s with caller := .readBegin s.queueEnd }
  | .readBegin queueEnd =>
    { s with caller := if queueEnd = s.queueBegin then .scan 0 0 else .readEnd }
  | .scan i ret =>
    if h : i < n then
      { s with caller := .scan (i + 1) (ret + if s.running ⟨i, h⟩ then 1 else 0) }
    else { s with caller := if ret = 0 then .assertEnd else .readEnd }
  | .assertEnd => { s with caller := .assertBegin s.queueEnd }
  | .assertBegin queueEnd =>
    { s with caller := if queueEnd = s.queueBegin then .unblock else .failed }
  | .unblock => { s with block := false, caller := .returned }
  | .idle | .returned | .failed => s

def act : Label π n F A → Pool π n F A
  | .add i func arg => s.add i func arg
  | .produce i => s.produce nullFunc i
  | .work w => s.work nullFunc w
  | .wait => s.wait
  | .watch => s.watch

/-- One step of the pool. -/
def Step (t : Pool π n F A) (a : Label π n F A) (u : Pool π n F A) : Prop := u = t.act nullFunc a

end Pool
end YwStorage.WorkerPool

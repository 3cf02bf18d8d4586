import YwStorage.Lib.Reader
import YwStorage.Lib.Run

/-!
The sequence lock of `ywseqlock.h`: threads that write under the lock and one thread that reads
without it.

Memory is sequentially consistent and every step is one access of it. `σ` is the data behind the
lock, `ω` a single store to it; `plan` gives the stores of a call, which reads the data under the
lock and so sees only its own stores.
-/
namespace YwStorage.SeqLock
open Lts

variable {ι : Type*} {σ : Type*} {ω : Type*} {φ : Type*} {ρ : Type*}

def lockMask : ℕ := 1

/-- What a writing thread does next. -/
inductive Writer (ω : Type*) (φ : Type*)
  | init
  /-- In `lock`, with `prev = *lock_seq`. -/
  | lock (op : φ) (prev : ℕ)
  /-- `LOCKED`, with the stores that are left. -/
  | locked (todo : List ω)
  /-- In `release`, with `prev = *lock_seq`. -/
  | release (prev : ℕ)

def Writer.Holds : Writer ω φ → Prop
  | .locked _ | .release _ => True
  | _ => False

/-- What the reading thread does next. -/
inductive ReadGuard (σ : Type*) (ρ : Type*)
  | init
  /-- `READ`, with the rest of the reading program. -/
  | read (readSeq : ℕ) (prog : Reader σ ρ)
  /-- `read_end` has returned `valid`. -/
  | ended (ret : ρ) (valid : Bool)

structure State (ι σ ω φ ρ : Type*) where
  data : σ
  lockSeq : ℕ
  writer : ι → Writer ω φ
  reader : ReadGuard σ ρ

inductive Label (ι σ φ ρ : Type*)
  | begin (i : ι) (op : φ)
  | refuse (i : ι)
  | acquire (i : ι)
  | store (i : ι)
  | finish (i : ι)
  | release (i : ι)
  | readBegin (prog : Reader σ ρ)
  | read
  | readEnd

def Label.isAcquire : Label ι σ φ ρ → Bool
  | .acquire _ => true
  | _ => false

variable [DecidableEq ι] (apply : σ → ω → σ) (plan : σ → φ → List ω → Prop)

def State.setWriter (s : State ι σ ω φ ρ) (i : ι) (w : Writer ω φ) : State ι σ ω φ ρ :=
  { s with writer := Function.update s.writer i w }

inductive Step : State ι σ ω φ ρ → Label ι σ φ ρ → State ι σ ω φ ρ → Prop
  | begin {s : State ι σ ω φ ρ} {i : ι} (op : φ) (hw : s.writer i = .init) :
      Step s (.begin i op) (s.setWriter i (.lock op s.lockSeq))
  -- `lock` returns false: the lock is taken, or the compare-and-swap fails
  | refuse {s : State ι σ ω φ ρ} {i : ι} {op : φ} {prev : ℕ} (hw : s.writer i = .lock op prev)
      (h : prev &&& lockMask ≠ 0 ∨ s.lockSeq ≠ prev) :
      Step s (.refuse i) (s.setWriter i .init)
  | acquire {s : State ι σ ω φ ρ} {i : ι} {op : φ} {prev : ℕ} {todo : List ω}
      (hw : s.writer i = .lock op prev) (h : prev &&& lockMask = 0) (hcas : s.lockSeq = prev)
      (hplan : plan s.data op todo) :
      Step s (.acquire i)
        { s.setWriter i (.locked todo) with lockSeq := prev ||| lockMask }
  | store {s : State ι σ ω φ ρ} {i : ι} {w : ω} {todo : List ω}
      (hw : s.writer i = .locked (w :: todo)) :
      Step s (.store i) { s.setWriter i (.locked todo) with data := apply s.data w }
  | finish {s : State ι σ ω φ ρ} {i : ι} (hw : s.writer i = .locked []) :
      Step s (.finish i) (s.setWriter i (.release s.lockSeq))
  | release {s : State ι σ ω φ ρ} {i : ι} {prev : ℕ} (hw : s.writer i = .release prev)
      (hcas : s.lockSeq = prev) :
      Step s (.release i) { s.setWriter i .init with lockSeq := (prev + 1) % 2 ^ 32 }
  | readBegin {s : State ι σ ω φ ρ} (prog : Reader σ ρ) (hr : s.reader = .init) :
      Step s (.readBegin prog) { s with reader := .read s.lockSeq prog }
  | read {s : State ι σ ω φ ρ} {readSeq : ℕ} {cell : σ → ℕ} {k : ℕ → Reader σ ρ}
      (hr : s.reader = .read readSeq (.ask cell k)) :
      Step s .read { s with reader := .read readSeq (k (cell s.data)) }
  | readEnd {s : State ι σ ω φ ρ} {readSeq : ℕ} {ret : ρ}
      (hr : s.reader = .read readSeq (.done ret)) :
      Step s .readEnd
        { s with reader := .ended ret (readSeq &&& lockMask = 0 ∧ readSeq = s.lockSeq) }

/-- A lock that nobody holds and nobody waits for. -/
def Initial (s : State ι σ ω φ ρ) : Prop :=
  s.lockSeq &&& lockMask = 0 ∧ s.lockSeq < 2 ^ 32 ∧ (∀ i, s.writer i = .init) ∧ s.reader = .init

end YwStorage.SeqLock

import Mathlib

/-! Programs that read a shared state one cell at a time; other parties may change the state
between two reads. -/
universe u v w

/-- A reading program: it asks for one cell and goes on with the value found there. -/
inductive Reader (σ : Type u) (ρ : Type v) : Type (max u v)
  | done (r : ρ)
  | ask (cell : σ → ℕ) (k : ℕ → Reader σ ρ)

namespace Reader
variable {σ : Type u} {ρ : Type v} {ρ' : Type w}

/-- What the program returns when the state stays the same. -/
def eval (s : σ) : Reader σ ρ → ρ
  | done r => r
  | ask cell k => eval s (k (cell s))

def bind (f : ρ → Reader σ ρ') : Reader σ ρ → Reader σ ρ'
  | done r => f r
  | ask cell k => ask cell fun x => bind f (k x)

@[simp] theorem eval_done (s : σ) (r : ρ) : (done r).eval s = r := rfl

@[simp] theorem eval_ask (s : σ) (cell : σ → ℕ) (k : ℕ → Reader σ ρ) :
    (ask cell k).eval s = (k (cell s)).eval s := rfl

@[simp] theorem eval_bind (s : σ) (f : ρ → Reader σ ρ') (prog : Reader σ ρ) :
    (prog.bind f).eval s = (f (prog.eval s)).eval s := by
  induction prog with
  | done r => rfl
  | ask cell k ih => exact ih (cell s)

end Reader

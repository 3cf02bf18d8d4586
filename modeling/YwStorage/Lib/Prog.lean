import Mathlib

/-!
Programs over a state that may give up. A run stops at a failed assertion, gives up and hands the
state on, or ends with a value; `Wp` is what has to hold before it for all of this to be as wanted.
-/
namespace Programs

def Prog (σ α : Type) : Type := σ → Option (Option α × σ)

namespace Prog
variable {σ α β : Type}

instance : Monad (Prog σ) where
  pure a := fun s => some (some a, s)
  bind m f := fun s =>
    match m s with
    | none => none
    | some (none, s') => some (none, s')
    | some (some a, s') => f a s'

def fetch : Prog σ σ := fun s => some (some s, s)

def put (s : σ) : Prog σ Unit := fun _ => some (some (), s)

def giveUp : Prog σ α := fun s => some (none, s)

def assert (p : Prop) [Decidable p] : Prog σ Unit := fun s => if p then some (some (), s) else none

end Prog

open Prog

variable {σ α β : Type} {m : Prog σ α} {f : α → Prog σ β} {s s' : σ} {Q Q' : α → σ → Prop}
  {E E' : σ → Prop}

/-- No assertion fails; the program ends in `Q`, or it gives up in `E`. -/
def Wp (m : Prog σ α) (s : σ) (Q : α → σ → Prop) (E : σ → Prop) : Prop :=
  match m s with
  | none => False
  | some (none, s') => E s'
  | some (some a, s') => Q a s'

@[simp] theorem wp_pure (a : α) : Wp (pure a : Prog σ α) s Q E ↔ Q a s := Iff.rfl

@[simp] theorem wp_fetch {Q : σ → σ → Prop} : Wp fetch s Q E ↔ Q s s := Iff.rfl

@[simp] theorem wp_put {Q : Unit → σ → Prop} : Wp (put s') s Q E ↔ Q () s' := Iff.rfl

@[simp] theorem wp_giveUp : Wp (giveUp : Prog σ α) s Q E ↔ E s := Iff.rfl

@[simp] theorem wp_assert {p : Prop} [Decidable p] {Q : Unit → σ → Prop} :
    Wp (assert p) s Q E ↔ p ∧ Q () s := by
  unfold Wp assert
  split_ifs with hp
  · exact ⟨fun h => ⟨hp, h⟩, fun h => h.2⟩
  · exact ⟨fun h => h.elim, fun h => hp h.1⟩

@[simp] theorem wp_bind {Q : β → σ → Prop} :
    Wp (m >>= f) s Q E ↔ Wp m s (fun a s' => Wp (f a) s' Q E) E := by
  show (match (match m s with
    | none => none
    | some (none, s') => some (none, s')
    | some (some a, s') => f a s') with
    | none => False
    | some (none, s') => E s'
    | some (some b, s') => Q b s') ↔ _
  unfold Wp
  rcases m s with _ | ⟨_ | a, s'⟩ <;> rfl

theorem Wp.mono (h : Wp m s Q E) (hQ : ∀ a s', Q a s' → Q' a s') (hE : ∀ s', E s' → E' s') :
    Wp m s Q' E' := by
  unfold Wp at h ⊢
  revert h
  rcases m s with _ | ⟨_ | a, s'⟩
  · exact id
  · exact hE s'
  · exact hQ a s'

theorem Wp.cases (h : Wp m s Q E) :
    (∃ a s', m s = some (some a, s') ∧ Q a s') ∨ ∃ s', m s = some (none, s') ∧ E s' := by
  unfold Wp at h
  rcases hm : m s with _ | ⟨_ | a, s'⟩
  · rw [hm] at h
    exact h.elim
  · rw [hm] at h
    exact .inr ⟨s', rfl, h⟩
  · rw [hm] at h
    exact .inl ⟨a, s', rfl, h⟩

theorem Wp.run {a : α} (h : Wp m s (fun b x => b = a ∧ x = s') fun _ => False) :
    m s = some (some a, s') := by
  rcases h.cases with ⟨b, x, hm, rfl, rfl⟩ | ⟨x, -, hx⟩
  · exact hm
  · exact hx.elim

theorem wp_congr {m' : Prog σ α} {s₂ : σ} (h : m s = m' s₂) : Wp m s Q E ↔ Wp m' s₂ Q E := by
  unfold Wp
  rw [h]

theorem not_wp_true (h : ¬ Wp m s (fun _ _ => True) fun _ => True) : m s = none := by
  unfold Wp at h
  rcases hm : m s with _ | ⟨_ | a, s'⟩
  · rfl
  · rw [hm] at h
    exact (h trivial).elim
  · rw [hm] at h
    exact (h trivial).elim

theorem run_bind {a : α} (h : m s = some (some a, s')) : (m >>= f) s = f a s' := by
  show (match m s with
    | none => none
    | some (none, s') => some (none, s')
    | some (some a, s') => f a s') = _
  rw [h]

theorem bind_none (h : m s = none) : (m >>= f) s = none := by
  show (match m s with
    | none => none
    | some (none, s') => some (none, s')
    | some (some a, s') => f a s') = _
  rw [h]

/-- If no assertion fails, the program ends in `Q`, or it gives up in `E`. -/
def Wlp (m : Prog σ α) (s : σ) (Q : α → σ → Prop) (E : σ → Prop) : Prop :=
  match m s with
  | none => True
  | some (none, s') => E s'
  | some (some a, s') => Q a s'

@[simp] theorem wlp_fetch {Q : σ → σ → Prop} : Wlp fetch s Q E ↔ Q s s := Iff.rfl

@[simp] theorem wlp_put {Q : Unit → σ → Prop} : Wlp (put s') s Q E ↔ Q () s' := Iff.rfl

@[simp] theorem wlp_assert {p : Prop} [Decidable p] {Q : Unit → σ → Prop} :
    Wlp (assert p) s Q E ↔ (p → Q () s) := by
  unfold Wlp assert
  split_ifs with hp
  · exact ⟨fun h _ => h, fun h => h hp⟩
  · exact ⟨fun _ h => absurd h hp, fun _ => trivial⟩

@[simp] theorem wlp_bind {Q : β → σ → Prop} :
    Wlp (m >>= f) s Q E ↔ Wlp m s (fun a s' => Wlp (f a) s' Q E) E := by
  show (match (match m s with
    | none => none
    | some (none, s') => some (none, s')
    | some (some a, s') => f a s') with
    | none => True
    | some (none, s') => E s'
    | some (some b, s') => Q b s') ↔ _
  unfold Wlp
  rcases m s with _ | ⟨_ | a, s'⟩ <;> rfl

theorem Wlp.mono (h : Wlp m s Q E) (hQ : ∀ a s', Q a s' → Q' a s') (hE : ∀ s', E s' → E' s') :
    Wlp m s Q' E' := by
  unfold Wlp at h ⊢
  revert h
  rcases m s with _ | ⟨_ | a, s'⟩
  · exact id
  · exact hE s'
  · exact hQ a s'

end Programs

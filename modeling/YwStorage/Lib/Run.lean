import Mathlib

/-! Finite runs of labelled step relations, and the rules that carry facts along them. -/
namespace Lts

variable {σ ℓ : Type*}

/-- A finite run; the label list is the history of the steps it takes. -/
inductive Run (step : σ → ℓ → σ → Prop) : σ → List ℓ → σ → Prop
  | refl (s : σ) : Run step s [] s
  | stepL {s u t : σ} {a : ℓ} {xs : List ℓ} :
      step s a u → Run step u xs t → Run step s (a :: xs) t

/-- The steps of `step` that are taken where `good` holds. -/
def restrict (step : σ → ℓ → σ → Prop) (good : σ → ℓ → Prop) (s : σ) (a : ℓ) (t : σ) : Prop :=
  step s a t ∧ good s a

section Run
variable {step : σ → ℓ → σ → Prop} {s t u : σ} {a : ℓ} {xs ys : List ℓ}

theorem Run.single (h : step s a t) : Run step s [a] t := .stepL h (.refl t)

theorem Run.append (h : Run step s xs t) (h' : Run step t ys u) : Run step s (xs ++ ys) u := by
  induction h with
  | refl => exact h'
  | stepL hs _ ih => exact .stepL hs (ih h')

theorem Run.snoc (h : Run step s xs t) (h' : step t a u) : Run step s (xs ++ [a]) u :=
  h.append (.single h')

theorem Run.of_append (h : Run step s (xs ++ ys) t) : ∃ u, Run step s xs u ∧ Run step u ys t := by
  induction xs generalizing s with
  | nil => exact ⟨s, .refl s, h⟩
  | cons a xs ih =>
    cases h with
    | stepL hst hrest =>
      obtain ⟨u, hxs, hys⟩ := ih hrest
      exact ⟨u, .stepL hst hxs, hys⟩

/-- Whatever every step preserves holds at the end of a run. -/
theorem Run.invariant {P : σ → Prop} (h : Run step s xs t)
    (hstep : ∀ s a t, step s a t → P s → P t) (hs : P s) : P t := by
  induction h with
  | refl => exact hs
  | stepL hst _ ih => exact ih (hstep _ _ _ hst hs)

/-- The same rule for facts about the state and the history so far. -/
theorem Run.history {P : List ℓ → σ → Prop} (h : Run step s xs t)
    (hstep : ∀ ys s a t, step s a t → P ys s → P (ys ++ [a]) t)
    {ys : List ℓ} (hs : P ys s) : P (ys ++ xs) t := by
  induction h generalizing ys with
  | refl => simpa using hs
  | stepL hst _ ih => simpa using ih (hstep _ _ _ _ hst hs)

theorem Run.mono {step' : σ → ℓ → σ → Prop} (h : Run step s xs t)
    (hstep : ∀ s a t, step s a t → step' s a t) : Run step' s xs t := by
  induction h with
  | refl => exact .refl _
  | stepL hst _ ih => exact .stepL (hstep _ _ _ hst) ih

/-- A run whose labels are all good. -/
theorem Run.restrict_labels {good : ℓ → Prop} (h : Run step s xs t) (hgood : ∀ a ∈ xs, good a) :
    Run (restrict step fun _ a => good a) s xs t := by
  induction h with
  | refl => exact .refl _
  | stepL hst _ ih =>
    exact .stepL ⟨hst, hgood _ List.mem_cons_self⟩
      (ih fun a ha => hgood a (List.mem_cons_of_mem _ ha))

/-- Forward simulation: a run of the concrete steps is one of the abstract steps. -/
theorem Run.simulation {τ : Type*} {step' : τ → ℓ → τ → Prop} {R : σ → τ → Prop} {b : τ}
    (h : Run step s xs t) (hR : R s b)
    (hstep : ∀ s a t b, step s a t → R s b → ∃ b', step' b a b' ∧ R t b') :
    ∃ b', Run step' b xs b' ∧ R t b' := by
  induction h generalizing b with
  | refl => exact ⟨b, .refl b, hR⟩
  | stepL hst _ ih =>
    obtain ⟨b₁, hst', hR₁⟩ := hstep _ _ _ _ hst hR
    obtain ⟨b', hrun, hR'⟩ := ih hR₁
    exact ⟨b', .stepL hst' hrun, hR'⟩

end Run

section Exec
variable {ι : Type*} {step : σ → ℓ → σ → Prop} {exec : σ → ι → Option (ℓ × σ)} {s t : σ}

/-- Runs a list of inputs and collects the labels. -/
def runAll (exec : σ → ι → Option (ℓ × σ)) : σ → List ι → Option (List ℓ × σ)
  | s, [] => some ([], s)
  | s, i :: is => (exec s i).bind fun r => (runAll exec r.2 is).map fun q => (r.1 :: q.1, q.2)

theorem run_of_runAll (hexec : ∀ s i a t, exec s i = some (a, t) → step s a t) {is : List ι}
    {xs : List ℓ} (h : runAll exec s is = some (xs, t)) : Run step s xs t := by
  induction is generalizing s xs with
  | nil =>
    simp only [runAll, Option.some.injEq, Prod.mk.injEq] at h
    obtain ⟨rfl, rfl⟩ := h
    exact .refl s
  | cons i is ih =>
    simp only [runAll, Option.bind_eq_some_iff, Option.map_eq_some_iff, Prod.mk.injEq] at h
    obtain ⟨⟨a, u⟩, hi, ⟨ys, t'⟩, hu, rfl, rfl⟩ := h
    exact .stepL (hexec _ _ _ _ hi) (ih hu)

/-- A run from the labels that evaluation gives. -/
theorem exists_run (hexec : ∀ s i a t, exec s i = some (a, t) → step s a t) (s : σ) (is : List ι)
    {xs : List ℓ} (h : (runAll exec s is).map Prod.fst = some xs) : ∃ t, Run step s xs t := by
  obtain ⟨⟨ys, t⟩, hr, rfl⟩ := Option.map_eq_some_iff.mp h
  exact ⟨t, run_of_runAll hexec hr⟩

/-- The same, with what is evaluated in the last state. -/
theorem exists_run_end {β : Type*} (hexec : ∀ s i a t, exec s i = some (a, t) → step s a t) (s : σ)
    (is : List ι) (f : σ → β) {xs : List ℓ} {b : β}
    (h : (runAll exec s is).map (Prod.map id f) = some (xs, b)) :
    ∃ t, Run step s xs t ∧ f t = b := by
  obtain ⟨⟨ys, t⟩, hr, heq⟩ := Option.map_eq_some_iff.mp h
  obtain ⟨rfl, rfl⟩ := Prod.mk.inj heq
  exact ⟨t, run_of_runAll hexec hr, rfl⟩

end Exec

section Acts
variable (act : σ → ℓ → Option σ) (check : σ → ℓ → Bool)

/-- One step of a machine that a label drives, if it passes `check`. -/
def tryStep (s : σ) (a : ℓ) : Option (ℓ × σ) :=
  if check s a then (act s a).map fun t => (a, t) else none

theorem step_of_tryStep (s : σ) (a b : ℓ) (t : σ) (h : tryStep act check s a = some (b, t)) :
    restrict (fun s a t => act s a = some t) (fun s a => check s a = true) s b t := by
  unfold tryStep at h
  split at h
  · rename_i hcheck
    obtain ⟨u, hu, heq⟩ := Option.map_eq_some_iff.mp h
    obtain ⟨rfl, rfl⟩ := Prod.mk.inj heq
    exact ⟨hu, hcheck⟩
  · cases h

/-- A run of such a machine from the labels that drive it. -/
theorem exists_run_acts {β : Type*} (s : σ) (xs : List ℓ) (f : σ → β) {b : β}
    (h : (runAll (tryStep act check) s xs).map (Prod.map id f) = some (xs, b)) :
    ∃ t, Run (restrict (fun s a t => act s a = some t) fun s a => check s a = true) s xs t ∧
      f t = b :=
  exists_run_end (step_of_tryStep act check) s xs f h

end Acts
end Lts

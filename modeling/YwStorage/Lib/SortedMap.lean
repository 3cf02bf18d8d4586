import YwStorage.Lib.Run

/-!
Finite maps and the sorted association lists that represent them, with the rule by which a step
system refines a map along whole runs.
-/
namespace SortedMap
open Lts

variable {κ δ ρ : Type*}

/-- The calls of a map. -/
inductive Op (κ δ : Type*)
  | insert (k : κ) (d : δ)
  | remove (k : κ)
  | find (k : κ)
  deriving DecidableEq

/-- What a call returns. -/
inductive Reply (ρ : Type*)
  | flag (b : Bool)
  | value (r : ρ)
  deriving DecidableEq

/-- The replies the map `m` allows; `found` says what a search may report. -/
def Replies (found : Option δ → ρ → Prop) (m : κ → Option δ) : Op κ δ → Reply ρ → Prop
  | .insert k _, r => r = .flag (m k).isNone
  | .remove k, r => r = .flag (m k).isSome
  | .find k, r => ∃ v, r = .value v ∧ found (m k) v

/-- The map after a call; an insertion of a present key is refused. -/
def next [DecidableEq κ] (m : κ → Option δ) : Op κ δ → κ → Option δ
  | .insert k d => if m k = none then Function.update m k (some d) else m
  | .remove k => Function.update m k none
  | .find _ => m

/-- Every call of the history was answered as the map answers it. -/
def Answers [DecidableEq κ] (found : Option δ → ρ → Prop) :
    (κ → Option δ) → List (Op κ δ × Reply ρ) → Prop
  | _, [] => True
  | m, e :: es => Replies found m e.1 e.2 ∧ Answers found (next m e.1) es

/-- The map after a history. -/
def after [DecidableEq κ] (m : κ → Option δ) (es : List (Op κ δ × Reply ρ)) : κ → Option δ :=
  es.foldl (fun m e => next m e.1) m

/-- A simulation of the single calls is one of whole runs. -/
theorem answers_run [DecidableEq κ] {σ : Type*} {found : Option δ → ρ → Prop}
    {step : σ → Op κ δ × Reply ρ → σ → Prop} {R : σ → (κ → Option δ) → Prop}
    {s t : σ} {es : List (Op κ δ × Reply ρ)} {m : κ → Option δ} (h : Run step s es t) (hR : R s m)
    (hstep : ∀ s m e t, step s e t → R s m → Replies found m e.1 e.2 ∧ R t (next m e.1)) :
    Answers found m es ∧ R t (after m es) := by
  induction h generalizing m with
  | refl => exact ⟨trivial, hR⟩
  | stepL hs _ ih =>
    obtain ⟨hreply, hR'⟩ := hstep _ _ _ _ hs hR
    obtain ⟨hans, hend⟩ := ih hR'
    exact ⟨⟨hreply, hans⟩, hend⟩

/-- The list holds exactly the entries of the map. -/
def Represents (es : List (κ × δ)) (m : κ → Option δ) : Prop :=
  ∀ k d, m k = some d ↔ (k, d) ∈ es

section Represents
variable {es es' : List (κ × δ)} {m : κ → Option δ} {k : κ} {d : δ}

theorem represents_nil : Represents ([] : List (κ × δ)) fun _ => none := by
  intro k d
  simp

theorem Represents.eq_some (h : Represents es m) (hk : (k, d) ∈ es) : m k = some d :=
  (h k d).mpr hk

theorem Represents.eq_none (h : Represents es m) (hk : ∀ d, (k, d) ∉ es) : m k = none := by
  cases hm : m k with
  | none => rfl
  | some d => exact absurd ((h k d).mp hm) (hk d)

end Represents

section Sorted
variable [LinearOrder κ] {es es' : List (κ × δ)} {m : κ → Option δ} {k : κ} {d : δ}

/-- Strictly growing keys, so also no key twice. -/
def Sorted (es : List (κ × δ)) : Prop := es.Pairwise fun x y => x.1 < y.1

/-- `es'` is `es` with the entry of `k` put in its place. -/
def Inserted (es es' : List (κ × δ)) (k : κ) (d : δ) : Prop :=
  ∃ bs cs, es = bs ++ cs ∧ es' = bs ++ (k, d) :: cs ∧ (∀ e ∈ bs, e.1 < k) ∧ ∀ e ∈ cs, k < e.1

/-- `es'` is `es` without the entry of `k`. -/
def Removed (es es' : List (κ × δ)) (k : κ) (d : δ) : Prop :=
  ∃ bs cs, es = bs ++ (k, d) :: cs ∧ es' = bs ++ cs

/-- Where a key cuts a sorted list. -/
theorem Sorted.cut (hs : Sorted es) (k : κ) :
    ∃ bs cs, es = bs ++ cs ∧ (∀ e ∈ bs, e.1 ≤ k) ∧ ∀ e ∈ cs, k < e.1 := by
  induction es with
  | nil => exact ⟨[], [], rfl, by simp, by simp⟩
  | cons e es ih =>
    obtain ⟨he, hes⟩ := List.pairwise_cons.mp hs
    by_cases hk : e.1 ≤ k
    · obtain ⟨bs, cs, rfl, hb, hc⟩ := ih hes
      exact ⟨e :: bs, cs, rfl, List.forall_mem_cons.mpr ⟨hk, hb⟩, hc⟩
    · have hlt := not_le.mp hk
      exact ⟨[], e :: es, rfl, by simp,
        List.forall_mem_cons.mpr ⟨hlt, fun f hf => hlt.trans (he f hf)⟩⟩

theorem Inserted.sorted (h : Inserted es es' k d) (hs : Sorted es) : Sorted es' := by
  obtain ⟨bs, cs, rfl, rfl, hb, hc⟩ := h
  rw [Sorted, List.pairwise_append] at hs
  refine List.pairwise_append.mpr ⟨hs.1, List.pairwise_cons.mpr ⟨hc, hs.2.1⟩, ?_⟩
  intro e he e' he'
  rcases List.mem_cons.mp he' with rfl | he'
  · exact hb e he
  · exact hs.2.2 e he e' he'

theorem Inserted.notMem (h : Inserted es es' k d) (d' : δ) : (k, d') ∉ es := by
  obtain ⟨bs, cs, rfl, -, hb, hc⟩ := h
  rw [List.mem_append]
  rintro (he | he)
  · exact lt_irrefl _ (hb _ he)
  · exact lt_irrefl _ (hc _ he)

theorem Removed.sorted (h : Removed es es' k d) (hs : Sorted es) : Sorted es' := by
  obtain ⟨bs, cs, rfl, rfl⟩ := h
  exact hs.sublist (List.Sublist.append_left (List.sublist_cons_self _ _) bs)

theorem Removed.mem (h : Removed es es' k d) : (k, d) ∈ es := by
  obtain ⟨bs, cs, rfl, -⟩ := h
  simp

/-- In a sorted list the other entries have other keys. -/
theorem Removed.ne (h : Removed es es' k d) (hs : Sorted es) {e : κ × δ} (he : e ∈ es') :
    e.1 ≠ k := by
  obtain ⟨bs, cs, rfl, rfl⟩ := h
  rw [Sorted, List.pairwise_append, List.pairwise_cons] at hs
  rcases List.mem_append.mp he with he | he
  · exact (hs.2.2 e he (k, d) List.mem_cons_self).ne
  · exact (hs.2.1.1 e he).ne'

theorem Represents.insert (h : Represents es m) (hi : Inserted es es' k d) :
    Represents es' (Function.update m k (some d)) := by
  intro k' d'
  have hno := hi.notMem
  obtain ⟨bs, cs, rfl, rfl, -⟩ := hi
  by_cases hk : k' = k
  · subst hk
    simp only [List.mem_append, not_or] at hno
    simp [(hno d').1, (hno d').2, eq_comm]
  · rw [Function.update_of_ne hk, h k' d']
    simp [hk]

theorem Represents.remove (h : Represents es m) (hs : Sorted es) (hr : Removed es es' k d) :
    Represents es' (Function.update m k none) := by
  intro k' d'
  by_cases hk : k' = k
  · subst hk
    rw [Function.update_self]
    exact ⟨fun hn => by simp at hn, fun he => absurd rfl (hr.ne hs he)⟩
  · rw [Function.update_of_ne hk, h k' d']
    obtain ⟨bs, cs, rfl, rfl⟩ := hr
    simp [hk]

/-- An entry of the key is replaced. -/
def put (k : κ) (d : δ) : List (κ × δ) → List (κ × δ)
  | [] => [(k, d)]
  | (k', d') :: es =>
    if k < k' then (k, d) :: (k', d') :: es
    else if k = k' then (k, d) :: es
    else (k', d') :: put k d es

theorem mem_put (hs : Sorted es) {e : κ × δ} :
    e ∈ put k d es ↔ e = (k, d) ∨ e ∈ es ∧ e.1 ≠ k := by
  induction es with
  | nil => simp [put]
  | cons f es ih =>
    obtain ⟨hf, hes⟩ := List.pairwise_cons.mp hs
    rw [put]
    split_ifs with hlt heq
    · have hne : ∀ g ∈ f :: es, g.1 ≠ k := by
        rw [List.forall_mem_cons]
        exact ⟨hlt.ne', fun g hg => (hlt.trans (hf g hg)).ne'⟩
      rw [List.mem_cons]
      exact or_congr_right ⟨fun he => ⟨he, hne e he⟩, fun he => he.1⟩
    · subst heq
      rw [List.mem_cons, List.mem_cons]
      refine or_congr_right ⟨fun he => ⟨.inr he, (hf e he).ne'⟩, ?_⟩
      rintro ⟨rfl | he, hne⟩
      · exact absurd rfl hne
      · exact he
    · rw [List.mem_cons, List.mem_cons, ih hes]
      constructor
      · rintro (rfl | rfl | ⟨he, hne⟩)
        · exact .inr ⟨.inl rfl, Ne.symm heq⟩
        · exact .inl rfl
        · exact .inr ⟨.inr he, hne⟩
      · rintro (rfl | ⟨rfl | he, hne⟩)
        · exact .inr (.inl rfl)
        · exact .inl rfl
        · exact .inr (.inr ⟨he, hne⟩)

theorem put_sorted (hs : Sorted es) : Sorted (put k d es) := by
  induction es with
  | nil => exact List.pairwise_singleton _ _
  | cons f es ih =>
    obtain ⟨hf, hes⟩ := List.pairwise_cons.mp hs
    rw [put]
    split_ifs with hlt heq
    · refine List.pairwise_cons.mpr ⟨?_, hs⟩
      rw [List.forall_mem_cons]
      exact ⟨hlt, fun g hg => hlt.trans (hf g hg)⟩
    · exact List.pairwise_cons.mpr ⟨fun g hg => heq ▸ hf g hg, hes⟩
    · refine List.pairwise_cons.mpr ⟨fun g hg => ?_, ih hes⟩
      rcases (mem_put hes).mp hg with rfl | ⟨hg, -⟩
      · exact lt_of_le_of_ne (not_lt.mp hlt) (Ne.symm heq)
      · exact hf g hg

theorem Represents.put (h : Represents es m) (hs : Sorted es) (k : κ) (d : δ) :
    Represents (put k d es) (Function.update m k (some d)) := by
  intro k' d'
  rw [mem_put hs]
  by_cases hk : k' = k
  · subst hk
    simp [eq_comm]
  · rw [Function.update_of_ne hk, h k' d']
    simp [hk]

/-- Nothing changes if the entry is there already. -/
theorem put_eq_self_iff (hs : Sorted es) : put k d es = es ↔ (k, d) ∈ es := by
  constructor
  · intro heq
    rw [← heq, mem_put hs]
    exact .inl rfl
  · intro hmem
    induction es with
    | nil => cases hmem
    | cons f es ih =>
      obtain ⟨hf, hes⟩ := List.pairwise_cons.mp hs
      rw [SortedMap.put]
      rcases List.mem_cons.mp hmem with rfl | hmem
      · simp
      · have hlt := hf _ hmem
        rw [if_neg hlt.not_gt, if_neg hlt.ne', ih hes hmem]

/-- An insertion that is refused if the key is present. -/
def InsertResult (es es' : List (κ × δ)) (k : κ) (d : δ) (b : Bool) : Prop :=
  b = false ∧ es' = es ∧ (∃ d', (k, d') ∈ es) ∨ b = true ∧ Inserted es es' k d

/-- A removal that is refused if the key is absent. -/
def RemoveResult (es es' : List (κ × δ)) (k : κ) (b : Bool) : Prop :=
  b = false ∧ es' = es ∧ (∀ d, (k, d) ∉ es) ∨ b = true ∧ ∃ d, Removed es es' k d

theorem Represents.insert_reply {b : Bool} {found : Option δ → ρ → Prop} (hm : Represents es m)
    (h : InsertResult es es' k d b) :
    Replies found m (.insert k d) (.flag b) ∧ Represents es' (next m (.insert k d)) := by
  obtain ⟨rfl, rfl, d', hd⟩ | ⟨rfl, hins⟩ := h
  · have hsome := hm.eq_some hd
    rw [next, if_neg (by simp [hsome])]
    exact ⟨by simp [Replies, hsome], hm⟩
  · have hnone := hm.eq_none hins.notMem
    rw [next, if_pos hnone]
    exact ⟨by simp [Replies, hnone], hm.insert hins⟩

theorem Represents.remove_reply {b : Bool} {found : Option δ → ρ → Prop} (hm : Represents es m)
    (hs : Sorted es) (h : RemoveResult es es' k b) :
    Replies found m (.remove k) (.flag b) ∧ Represents es' (next m (.remove k : Op κ δ)) := by
  obtain ⟨rfl, rfl, hno⟩ | ⟨rfl, d, hrem⟩ := h
  · have hnone := hm.eq_none hno
    rw [next, ← hnone, Function.update_eq_self]
    exact ⟨by simp [Replies, hnone], hm⟩
  · exact ⟨by simp [Replies, hm.eq_some hrem.mem], hm.remove hs hrem⟩

theorem Sorted.exists_represents (hs : Sorted es) : ∃ m, Represents es m := by
  induction es with
  | nil => exact ⟨_, represents_nil⟩
  | cons e es ih =>
    obtain ⟨he, hes⟩ := List.pairwise_cons.mp hs
    obtain ⟨m, hm⟩ := ih hes
    exact ⟨_, hm.insert ⟨[], es, rfl, rfl, by simp, he⟩⟩

end Sorted
end SortedMap

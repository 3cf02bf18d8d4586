import Mathlib

/-! Lists in the slots of an array, and what moving slots does to them. -/
namespace Slots

variable {β : Type*} {f g : ℕ → β} {l us vs : List β} {e x : β} {k : ℕ}

/-- The slots from `k` on hold the list. -/
def Reads (f : ℕ → β) : ℕ → List β → Prop
  | _, [] => True
  | k, x :: l => f k = x ∧ Reads f (k + 1) l

@[simp] theorem reads_nil : Reads f k [] := trivial

@[simp] theorem reads_cons : Reads f k (x :: l) ↔ f k = x ∧ Reads f (k + 1) l := Iff.rfl

theorem reads_append : Reads f k (us ++ vs) ↔ Reads f k us ∧ Reads f (k + us.length) vs := by
  induction us generalizing k with
  | nil => simp
  | cons u us ih =>
    rw [List.cons_append, reads_cons, reads_cons, ih, List.length_cons, and_assoc,
      show k + 1 + us.length = k + (us.length + 1) by omega]

/-- Shifted slots with the same contents. -/
theorem Reads.shift {k' : ℕ} (h : Reads f k l) (hg : ∀ i, i < l.length → g (k' + i) = f (k + i)) :
    Reads g k' l := by
  induction l generalizing k k' with
  | nil => trivial
  | cons x l ih =>
    have hfirst : g k' = f k := hg 0 (by simp)
    refine ⟨hfirst.trans h.1, ih h.2 fun i hi => ?_⟩
    have := hg (i + 1) (by simpa using hi)
    rwa [show k' + (i + 1) = k' + 1 + i by omega, show k + (i + 1) = k + 1 + i by omega] at this

theorem Reads.congr (h : Reads f k l) (hg : ∀ i, k ≤ i → i < k + l.length → g i = f i) :
    Reads g k l := h.shift fun i hi => hg (k + i) (by omega) (by omega)

theorem reads_map_range (f : ℕ → β) (n : ℕ) : Reads f 0 ((List.range n).map f) := by
  induction n with
  | zero => trivial
  | succ n ih =>
    rw [List.range_succ, List.map_append, reads_append]
    exact ⟨ih, by simp⟩

/-- The list around one of its places. -/
theorem exists_split {i : ℕ} (hi : i < l.length) :
    ∃ us vs, l = us ++ l[i] :: vs ∧ us.length = i := by
  refine ⟨l.take i, l.drop (i + 1), ?_, ?_⟩
  · rw [List.getElem_cons_drop, List.take_append_drop]
  · rw [List.length_take, Nat.min_eq_left (Nat.le_of_lt hi)]

theorem Reads.get (h : Reads f 0 l) {i : ℕ} (hi : i < l.length) : f i = l[i] := by
  obtain ⟨us, vs, hsplit, hlen⟩ := exists_split hi
  rw [hsplit, reads_append, reads_cons, Nat.zero_add, hlen] at h
  exact h.2.1

theorem eq_of_reads {l' : List β} (h : Reads f 0 l) (h' : Reads f 0 l')
    (hlen : l.length = l'.length) : l = l' :=
  List.ext_getElem hlen fun _ hi hi' => (h.get hi).symm.trans (h'.get hi')

/-- A new slot behind the first `us.length`, and the others one further up. -/
theorem Reads.insert (h : Reads f 0 (us ++ vs)) (hg : ∀ i, i ≤ (us ++ vs).length →
      g i = if i < us.length then f i else if i = us.length then x else f (i - 1)) :
    Reads g 0 (us ++ x :: vs) := by
  rw [List.length_append] at hg
  rw [reads_append] at h ⊢
  refine ⟨h.1.congr fun i _ hi => ?_, ?_, h.2.shift fun i hi => ?_⟩
  · rw [hg i (by omega), if_pos (by omega)]
  · rw [hg _ (by omega), if_neg (by omega), if_pos (by omega)]
  · rw [hg _ (by omega), if_neg (by omega), if_neg (by omega)]
    congr 1
    omega

/-- The slot behind the first `us.length` is dropped, and the others move down. -/
theorem Reads.erase (h : Reads f 0 (us ++ e :: vs))
    (hg : ∀ i, i < (us ++ vs).length → g i = if i < us.length then f i else f (i + 1)) :
    Reads g 0 (us ++ vs) := by
  rw [List.length_append] at hg
  rw [reads_append] at h ⊢
  refine ⟨h.1.congr fun i _ hi => ?_, h.2.2.shift fun i hi => ?_⟩
  · rw [hg i (by omega), if_pos (by omega)]
  · rw [hg _ (by omega), if_neg (by omega)]
    congr 1
    omega

end Slots

import Mathlib

/-! Lists cut at the first element that fails a test, and lists without blank ends. -/
namespace Tokens

variable {α : Type*} {p : α → Bool} {l r : List α} {c : α}

theorem takeWhile_append_cons (hl : ∀ a ∈ l, p a = true) (hc : p c = false) :
    (l ++ c :: r).takeWhile p = l := by
  rw [List.takeWhile_append_of_pos hl, List.takeWhile_cons_of_neg (by simp [hc]), List.append_nil]

theorem dropWhile_append_cons (hl : ∀ a ∈ l, p a = true) (hc : p c = false) :
    (l ++ c :: r).dropWhile p = c :: r := by
  rw [List.dropWhile_append_of_pos hl, List.dropWhile_cons_of_neg (by simp [hc])]

/-- The list without its blank ends. -/
def trim (p : α → Bool) (l : List α) : List α := (l.rdropWhile p).dropWhile p

/-- Neither end is blank. -/
structure Trimmed (p : α → Bool) (l : List α) : Prop where
  head : ∀ c, l.head? = some c → p c = false
  last : ∀ c, l.getLast? = some c → p c = false

theorem Trimmed.trim (h : Trimmed p l) : trim p l = l := by
  have hlast : l.rdropWhile p = l := by
    refine List.rdropWhile_eq_self_iff.mpr fun hne => ?_
    rw [h.last _ (List.getLast?_eq_some_getLast hne)]
    simp
  rw [Tokens.trim, hlast]
  cases l with
  | nil => rfl
  | cons c l => exact List.dropWhile_cons_of_neg (by simp [h.head c rfl])

theorem trim_subset (l : List α) : trim p l ⊆ l :=
  fun _ ha => (List.rdropWhile_prefix p l).subset ((List.dropWhile_sublist p).subset ha)

theorem trimmed_trim (p : α → Bool) (l : List α) : Trimmed p (trim p l) := by
  constructor
  · intro c hc
    have hne : (l.rdropWhile p).dropWhile p ≠ [] := by
      intro hnil
      rw [trim, hnil] at hc
      cases hc
    have hhead := List.head_dropWhile_not p hne
    rw [trim, List.head?_eq_some_head hne] at hc
    rw [← Option.some.inj hc]
    simpa using hhead
  · intro c hc
    -- what is left at the end comes from the end of the list
    have hsuffix : (l.rdropWhile p).dropWhile p <:+ l.rdropWhile p := List.dropWhile_suffix p
    have hne : (l.rdropWhile p).dropWhile p ≠ [] := by
      intro hnil
      rw [trim, hnil] at hc
      cases hc
    have hne' : l.rdropWhile p ≠ [] := by
      intro hnil
      rw [hnil] at hne
      exact hne rfl
    have hlast := List.rdropWhile_last_not p l hne'
    rw [trim, List.getLast?_eq_some_getLast hne, hsuffix.getLast hne] at hc
    rw [← Option.some.inj hc]
    simpa using hlast

theorem trim_cons (hc : p c = true) : trim p (c :: l) = trim p l := by
  have hrev : (c :: l).rdropWhile p =
      if (l.rdropWhile p).isEmpty then [] else c :: l.rdropWhile p := by
    unfold List.rdropWhile
    rw [List.reverse_cons, List.dropWhile_append]
    cases hd : l.reverse.dropWhile p with
    | nil => simp [hc]
    | cons a as => simp
  rw [trim, trim, hrev]
  cases hd : l.rdropWhile p with
  | nil => rfl
  | cons a as => simp [List.dropWhile_cons, hc]

theorem trim_append (hr : ∀ a ∈ r, p a = true) : trim p (l ++ r) = trim p l := by
  have hrev : (l ++ r).rdropWhile p = l.rdropWhile p := by
    unfold List.rdropWhile
    rw [List.reverse_append, List.dropWhile_append_of_pos fun a ha => hr a (List.mem_reverse.mp ha)]
  rw [trim, trim, hrev]

end Tokens

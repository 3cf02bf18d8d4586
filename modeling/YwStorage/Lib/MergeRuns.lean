import Mathlib

/-! One pass of a bottom-up merge sort: sorted runs of length `h` become runs of length `2 * h`. -/
namespace MergeRuns

variable {α : Type*} (le : α → α → Bool) {h : ℕ} {l : List α}

/-- Merges neighbouring runs; of two equal elements that of the later run comes first. -/
def mergeRuns (h : ℕ) (l : List α) : List α :=
  if 0 < h ∧ h < l.length then
    List.merge ((l.drop h).take h) (l.take h) le ++ mergeRuns h (l.drop (2 * h))
  else l
termination_by l.length
decreasing_by
  rw [List.length_drop]
  omega

/-- Every run of length `h` is sorted. -/
def RunsSorted (h : ℕ) (l : List α) : Prop :=
  ∀ k, ((l.drop (k * h)).take h).Pairwise fun a b => le a b = true

variable {le}

theorem mergeRuns_of_le (hl : l.length ≤ h) : mergeRuns le h l = l := by
  rw [mergeRuns, if_neg (by omega)]

theorem mergeRuns_of_lt (hh : 0 < h) (hl : h < l.length) : mergeRuns le h l =
    List.merge ((l.drop h).take h) (l.take h) le ++ mergeRuns le h (l.drop (2 * h)) := by
  rw [mergeRuns, if_pos ⟨hh, hl⟩]

theorem take_drop_runs (h : ℕ) (l : List α) :
    l.take h ++ ((l.drop h).take h ++ l.drop (2 * h)) = l := by
  have hdrop : l.drop (2 * h) = (l.drop h).drop h := by
    rw [List.drop_drop]
    congr 1
    omega
  rw [hdrop, List.take_append_drop, List.take_append_drop]

theorem mergeRuns_perm (h : ℕ) (l : List α) : (mergeRuns le h l).Perm l := by
  induction l using mergeRuns.induct h with
  | case1 l hl ih =>
    rw [mergeRuns_of_lt hl.1 hl.2]
    have hmerge : (List.merge ((l.drop h).take h) (l.take h) le).Perm
        (l.take h ++ (l.drop h).take h) := (List.merge_perm_append le).trans List.perm_append_comm
    have hall := hmerge.append ih
    rw [List.append_assoc, take_drop_runs] at hall
    exact hall
  | case2 l hl => rw [mergeRuns, if_neg hl]

theorem length_mergeRuns : (mergeRuns le h l).length = l.length := (mergeRuns_perm h l).length_eq

theorem runsSorted_one (l : List α) : RunsSorted le 1 l := by
  intro k
  cases l.drop (k * 1) with
  | nil => exact .nil
  | cons x xs => exact List.pairwise_singleton _ _

theorem RunsSorted.sorted (hs : RunsSorted le h l) (hl : l.length ≤ h) :
    l.Pairwise fun a b => le a b = true := by
  have hfirst := hs 0
  rwa [Nat.zero_mul, List.drop_zero, List.take_of_length_le hl] at hfirst

theorem RunsSorted.drop (hs : RunsSorted le h l) (n : ℕ) : RunsSorted le h (l.drop (n * h)) := by
  intro k
  have := hs (n + k)
  rwa [Nat.add_mul, ← List.drop_drop] at this

/-- A pass doubles the length of the sorted runs. -/
theorem RunsSorted.mergeRuns (htrans : ∀ a b c, le a b = true → le b c = true → le a c = true)
    (htotal : ∀ a b, (le a b || le b a) = true) (hh : 0 < h) (hs : RunsSorted le h l) :
    RunsSorted le (2 * h) (mergeRuns le h l) := by
  induction l using mergeRuns.induct h with
  | case1 l hl ih =>
    rw [mergeRuns_of_lt hl.1 hl.2]
    have hleft : (l.take h).Pairwise fun a b => le a b = true := by
      have := hs 0
      rwa [Nat.zero_mul, List.drop_zero] at this
    have hright : ((l.drop h).take h).Pairwise fun a b => le a b = true := by
      have := hs 1
      rwa [Nat.one_mul] at this
    have hmerge := List.pairwise_merge htrans htotal _ _ hright hleft
    have hrest := ih (hs.drop 2)
    have hlen : (List.merge ((l.drop h).take h) (l.take h) le).length = min (2 * h) l.length := by
      rw [List.length_merge, List.length_take, List.length_take, List.length_drop]
      omega
    have hrestlen : (MergeRuns.mergeRuns le h (l.drop (2 * h))).length = l.length - 2 * h := by
      rw [length_mergeRuns, List.length_drop]
    intro k
    rcases Nat.lt_or_ge l.length (2 * h) with hshort | hlong
    · -- the pair of runs is the whole list
      have hnil : MergeRuns.mergeRuns le h (l.drop (2 * h)) = [] := by
        rw [← List.length_eq_zero_iff, hrestlen]
        omega
      rw [hnil, List.append_nil]
      exact (hmerge.drop).take
    · cases k with
      | zero =>
        rw [Nat.zero_mul, List.drop_zero, List.take_left' (by omega)]
        exact hmerge
      | succ k =>
        rw [show (k + 1) * (2 * h) = 2 * h + k * (2 * h) by ring, ← List.drop_drop,
          List.drop_left' (by omega)]
        exact hrest k
  | case2 l hl =>
    rw [MergeRuns.mergeRuns, if_neg hl]
    have hsorted := hs.sorted (by omega)
    exact fun k => (hsorted.drop).take

end MergeRuns

import YwStorage.Lib.MergeRuns
import YwStorage.Lib.Slots

/-!
Bottom-up merge sort of `count` elements between two buffers. Indices are kept modulo `W`, and sums
that are only compared are computed in 32 bits. Every access of a buffer is checked: the result is
`none` if an index is not below `count`, or if the fuel does not suffice.
-/
namespace MergeSort
open Slots MergeRuns

section Loops
variable {α : Type*} (W : ℕ) (less : α → α → Bool) (count : ℕ) (src : ℕ → α)

def sum (i level : ℕ) : ℕ := (i + level) % 2 ^ 32

/-- `dst[j] = src[k]` -/
def move (dst : ℕ → α) (j k : ℕ) : Option (ℕ → α) :=
  if j < count ∧ k < count then some (Function.update dst j (src k)) else none

/-- `while ((j < i+level) && (j < count)) dst[j++] = src[k++];` with `n` turns left. -/
def drain : ℕ → (ℕ → α) → ℕ → ℕ → Option (ℕ → α)
  | 0, dst, _, _ => some dst
  | n + 1, dst, j, k => do
    let dst ← move count src dst j k
    drain n dst (j + 1) (k + 1)

/-- The `do` loop that merges the runs at `left` and `right`, with the place it stops at. -/
def mergeLoop (i level : ℕ) : ℕ → (ℕ → α) → ℕ → ℕ → ℕ → Option ((ℕ → α) × ℕ)
  | 0, _, _, _, _ => none
  | fuel + 1, dst, j, left, right =>
    let stop := min (sum i level) count
    if left < count ∧ right < count then
      if less (src left) (src right) then do
        let dst ← move count src dst j left
        if left + 1 = sum i (level / 2) then do
          let dst ← drain count src (stop - (j + 1)) dst (j + 1) right
          return (dst, max stop (j + 1))
        else if j + 1 < stop then mergeLoop i level fuel dst (j + 1) (left + 1) right
        else return (dst, j + 1)
      else do
        let dst ← move count src dst j right
        if right + 1 = sum i level ∨ right + 1 = count then do
          let dst ← drain count src (stop - (j + 1)) dst (j + 1) left
          return (dst, max stop (j + 1))
        else if j + 1 < stop then mergeLoop i level fuel dst (j + 1) left (right + 1)
        else return (dst, j + 1)
    else none

/-- One pass over all pairs of runs. -/
def passLoop (level : ℕ) : ℕ → ℕ → (ℕ → α) → ℕ → Option (ℕ → α)
  | 0, _, _, _ => none
  | fuel + 1, i, dst, j =>
    if i < count then
      let right := (i + level / 2) % W
      if right ≥ count then drain count src (min (sum i level) count - j) dst j i
      else do
        let r ← mergeLoop less count src i level (count + 1) dst j i right
        passLoop level fuel ((i + level) % W) r.1 r.2
    else some dst

/-- The passes, with runs of `level / 2` elements; the buffers are flipped after each. -/
def sortLoop (turns : ℕ) : ℕ → ℕ → (ℕ → α) → (ℕ → α) → Option (ℕ → α)
  | 0, _, _, _ => none
  | fuel + 1, level, src, dst =>
    if level / 2 < count then do
      let dst ← passLoop W less count src level turns 0 dst 0
      sortLoop turns fuel (level * 2 % W) dst src
    else some src

end Loops

variable {α : Type*} {W : ℕ} {less : α → α → Bool} {src dst : ℕ → α} {count : ℕ}
  {xs ys zs : List α} {j k i left right level h : ℕ}

theorem sum_of_lt (hlt : i + level < 2 ^ 32) : sum i level = i + level := Nat.mod_eq_of_lt hlt

theorem move_of_lt (hj : j < count) (hk : k < count) :
    move count src dst j k = some (Function.update dst j (src k)) := if_pos ⟨hj, hk⟩

theorem drain_spec (dst : ℕ → α) (hz : Reads src k zs) (hj : j + zs.length ≤ count)
    (hk : k + zs.length ≤ count) :
    ∃ dst', drain count src zs.length dst j k = some dst' ∧ Reads dst' j zs ∧
      ∀ x, x < j → dst' x = dst x := by
  induction zs generalizing dst j k with
  | nil => exact ⟨dst, rfl, trivial, fun _ _ => rfl⟩
  | cons z zs ih =>
    rw [List.length_cons] at hj hk
    obtain ⟨dst', hdrain, hreads, hkeep⟩ :=
      ih (j := j + 1) (Function.update dst j (src k)) hz.2 (by omega) (by omega)
    refine ⟨dst', ?_, ⟨?_, hreads⟩, fun x hx => ?_⟩
    · rw [List.length_cons, drain, move_of_lt (by omega) (by omega)]
      exact hdrain
    · rw [hkeep j (by omega), Function.update_self, hz.1]
    · rw [hkeep x (by omega), Function.update_of_ne (by omega)]

/-- The merge fills the places from `j` on and leaves those before it alone. -/
theorem mergeLoop_spec (fuel : ℕ) (dst : ℕ → α) {x y : α} (hx : Reads src left (x :: xs))
    (hy : Reads src right (y :: ys)) (hmid : left + xs.length + 1 = i + level / 2)
    (hend : right + ys.length + 1 = min (i + level) count)
    (hj : j + (xs.length + ys.length + 2) = min (i + level) count)
    (hlt : i + level < 2 ^ 32) (hleft : i + level / 2 ≤ count)
    (hfuel : xs.length + ys.length + 2 ≤ fuel) :
    ∃ dst', mergeLoop less count src i level fuel dst j left right =
        some (dst', min (i + level) count) ∧
      Reads dst' j (List.merge (y :: ys) (x :: xs) fun a b => !less b a) ∧
      ∀ z, z < j → dst' z = dst z := by
  induction fuel generalizing dst xs ys x y j left right with
  | zero => omega
  | succ fuel ih =>
    rw [List.cons_merge_cons, mergeLoop, hx.1, hy.1, sum_of_lt hlt, sum_of_lt (by omega),
      if_pos (by omega), move_of_lt (by omega) (by omega), move_of_lt (by omega) (by omega)]
    by_cases hless : less x y = true
    · simp only [hless, if_true, Bool.not_true, Bool.false_eq_true, if_false, Option.bind_eq_bind,
        Option.bind_some, hx.1]
      cases xs with
      | nil =>
        -- the left run is used up
        simp only [List.length_nil] at *
        obtain ⟨dst', hdrain, hreads, hkeep⟩ : ∃ dst',
            drain count src (ys.length + 1) (Function.update dst j x) (j + 1) right = some dst' ∧
              Reads dst' (j + 1) (y :: ys) ∧ ∀ z, z < j + 1 → dst' z = Function.update dst j x z :=
          drain_spec _ hy (by rw [List.length_cons]; omega) (by rw [List.length_cons]; omega)
        rw [if_pos (by omega), show min (i + level) count - (j + 1) = ys.length + 1 by omega,
          show max (min (i + level) count) (j + 1) = min (i + level) count by omega,
          List.merge_right, hdrain]
        refine ⟨dst', rfl, ⟨?_, hreads⟩, fun z hz => ?_⟩
        · rw [hkeep j (by omega), Function.update_self]
        · rw [hkeep z (by omega), Function.update_of_ne (by omega)]
      | cons x' xs =>
        simp only [List.length_cons] at *
        obtain ⟨dst', hloop, hreads, hkeep⟩ := ih (j := j + 1) (Function.update dst j x) hx.2 hy
          (by omega) hend (by omega) (by omega)
        rw [if_neg (by omega), if_pos (by omega)]
        refine ⟨dst', hloop, ⟨?_, hreads⟩, fun z hz => ?_⟩
        · rw [hkeep j (by omega), Function.update_self]
        · rw [hkeep z (by omega), Function.update_of_ne (by omega)]
    · simp only [hless, Bool.false_eq_true, if_false, Bool.not_false, if_true, Option.bind_eq_bind,
        Option.bind_some, hy.1]
      cases ys with
      | nil =>
        simp only [List.length_nil] at *
        obtain ⟨dst', hdrain, hreads, hkeep⟩ : ∃ dst',
            drain count src (xs.length + 1) (Function.update dst j y) (j + 1) left = some dst' ∧
              Reads dst' (j + 1) (x :: xs) ∧ ∀ z, z < j + 1 → dst' z = Function.update dst j y z :=
          drain_spec _ hx (by rw [List.length_cons]; omega) (by rw [List.length_cons]; omega)
        rw [if_pos (by omega), show min (i + level) count - (j + 1) = xs.length + 1 by omega,
          show max (min (i + level) count) (j + 1) = min (i + level) count by omega,
          List.nil_merge, hdrain]
        refine ⟨dst', rfl, ⟨?_, hreads⟩, fun z hz => ?_⟩
        · rw [hkeep j (by omega), Function.update_self]
        · rw [hkeep z (by omega), Function.update_of_ne (by omega)]
      | cons y' ys =>
        simp only [List.length_cons] at *
        obtain ⟨dst', hloop, hreads, hkeep⟩ := ih (j := j + 1) (Function.update dst j y) hx hy.2
          hmid (by omega) (by omega) (by omega)
        rw [if_neg (by omega), if_pos (by omega)]
        refine ⟨dst', hloop, ⟨?_, hreads⟩, fun z hz => ?_⟩
        · rw [hkeep j (by omega), Function.update_self]
        · rw [hkeep z (by omega), Function.update_of_ne (by omega)]

variable {L done : List α}

/-- One pass, from the place `i` on; `done` are the runs it has merged so far. -/
theorem passLoop_spec (hL : Reads src 0 L) (hlen : L.length = count) (hh : 0 < h)
    (hwrap : count + 2 * h ≤ W) (hW : W ≤ 2 ^ 32) (fuel i : ℕ) (dst : ℕ → α)
    (hdone : Reads dst 0 done) (hj : done.length = min i count) (hpos : 0 < fuel)
    (hfuel : count < i + fuel) :
    ∃ dst', passLoop W less count src (2 * h) fuel i dst (min i count) = some dst' ∧
      Reads dst' 0 (done ++ mergeRuns (fun a b => !less b a) h (L.drop i)) := by
  induction fuel generalizing i dst done with
  | zero => omega
  | succ fuel ih =>
    rw [passLoop]
    by_cases hi : i < count
    · have hright : (i + 2 * h / 2) % W = i + h := by
        rw [show i + 2 * h / 2 = i + h by omega, Nat.mod_eq_of_lt (by omega)]
      have hnext : (i + 2 * h) % W = i + 2 * h := Nat.mod_eq_of_lt (by omega)
      have hrest : Reads src i (L.drop i) := by
        rw [← List.take_append_drop i L, reads_append, List.length_take] at hL
        simpa [show min i L.length = i by omega] using hL.2
      have hrestlen : (L.drop i).length = count - i := by rw [List.length_drop, hlen]
      simp only [if_pos hi, hright, hnext, show min i count = i by omega,
        sum_of_lt (show i + 2 * h < 2 ^ 32 by omega)]
      rw [show min i count = i by omega] at hj
      by_cases hlast : i + h ≥ count
      · rw [if_pos hlast, mergeRuns_of_le (by omega)]
        obtain ⟨dst', hdrain, hreads, hkeep⟩ : ∃ dst',
            drain count src (L.drop i).length dst i i = some dst' ∧ Reads dst' i (L.drop i) ∧
              ∀ z, z < i → dst' z = dst z :=
          drain_spec dst hrest (by omega) (by omega)
        rw [hrestlen] at hdrain
        rw [show min (i + 2 * h) count - i = count - i by omega]
        refine ⟨dst', hdrain, reads_append.mpr ⟨hdone.congr fun z _ hz => hkeep z (by omega), ?_⟩⟩
        rwa [Nat.zero_add, hj]
      · rw [if_neg hlast, mergeRuns_of_lt hh (by omega)]
        generalize hrest' : L.drop i = rest at hrest hrestlen
        have hsplit := take_drop_runs h rest
        rw [← hsplit, reads_append, reads_append, List.length_take,
          show min h rest.length = h by omega] at hrest
        obtain ⟨x, xs, hxs⟩ : ∃ x xs, rest.take h = x :: xs :=
          List.exists_cons_of_length_pos (by rw [List.length_take]; omega)
        obtain ⟨y, ys, hys⟩ : ∃ y ys, (rest.drop h).take h = y :: ys :=
          List.exists_cons_of_length_pos (by rw [List.length_take, List.length_drop]; omega)
        have hxlen : xs.length + 1 = h := by
          rw [← List.length_cons (a := x), ← hxs, List.length_take]
          omega
        have hylen : ys.length + 1 = min h (count - i - h) := by
          rw [← List.length_cons (a := y), ← hys, List.length_take, List.length_drop]
          omega
        rw [hxs, hys] at hrest
        obtain ⟨dst₁, hloop, hreads, hkeep⟩ :
            ∃ dst₁, mergeLoop less count src i (2 * h) (count + 1) dst i i (i + h) =
                some (dst₁, min (i + 2 * h) count) ∧
              Reads dst₁ i (List.merge (y :: ys) (x :: xs) fun a b => !less b a) ∧
              ∀ z, z < i → dst₁ z = dst z :=
          mergeLoop_spec (count + 1) dst hrest.1 hrest.2.1 (by omega) (by omega) (by omega)
            (by omega) (by omega) (by omega)
        have hdone₁ :
            Reads dst₁ 0 (done ++ List.merge (y :: ys) (x :: xs) fun a b => !less b a) := by
          refine reads_append.mpr ⟨hdone.congr fun z _ hz => hkeep z (by omega), ?_⟩
          rwa [Nat.zero_add, hj]
        obtain ⟨dst', hpass, hall⟩ := ih (i + 2 * h) dst₁ hdone₁ (by
          rw [List.length_append, List.length_merge, List.length_cons, List.length_cons, hj]
          omega) (by omega) (by omega)
        rw [hloop, hxs, hys, ← List.append_assoc, ← hrest', List.drop_drop]
        exact ⟨dst', hpass, hall⟩
    · have hnil : L.drop i = [] := List.drop_eq_nil_of_le (by omega)
      rw [if_neg hi, hnil, mergeRuns_of_le (by simp), List.append_nil]
      exact ⟨dst, rfl, hdone⟩

/-- Sorting ends with a sorted permutation if a quarter of the indices can count the elements. -/
theorem sortLoop_spec (htrans : ∀ a b c, less b a = false → less c b = false → less c a = false)
    (htotal : ∀ a b, less b a = false ∨ less a b = false) {turns : ℕ} (fuel : ℕ)
    (hL : Reads src 0 L) (hlen : L.length = count) (hh : 0 < h)
    (hruns : RunsSorted (fun a b => !less b a) h L) (hcount : 4 * count ≤ W) (hW : W ≤ 2 ^ 32)
    (hturns : count < turns) (hpos : 0 < fuel) (hfuel : count < h + fuel) (dst : ℕ → α) :
    ∃ src' L', sortLoop W less count turns fuel (2 * h) src dst = some src' ∧ Reads src' 0 L' ∧
      L'.Perm L ∧ L'.Pairwise fun a b => less b a = false := by
  induction fuel generalizing h L src dst with
  | zero => omega
  | succ fuel ih =>
    rw [sortLoop]
    by_cases hlt : 2 * h / 2 < count
    · obtain ⟨dst₁, hpass, hreads⟩ : ∃ dst₁,
          passLoop W less count src (2 * h) turns 0 dst (min 0 count) = some dst₁ ∧
            Reads dst₁ 0 ([] ++ mergeRuns (fun a b => !less b a) h (L.drop 0)) :=
        passLoop_spec hL hlen hh (by omega) hW turns 0 dst reads_nil (by simp) (by omega) (by omega)
      have hlevel : 2 * h * 2 % W = 2 * (2 * h) := by
        rw [show 2 * h * 2 = 2 * (2 * h) by omega, Nat.mod_eq_of_lt (by omega)]
      rw [List.drop_zero, List.nil_append] at hreads
      have hruns₁ := hruns.mergeRuns (by simpa using htrans) (by simpa using htotal) hh
      obtain ⟨src', L', hsort, hr, hperm, hsorted⟩ := ih hreads (by rw [length_mergeRuns, hlen])
        (by omega) hruns₁ (by omega) (by omega) src
      rw [Nat.zero_min] at hpass
      refine ⟨src', L', ?_, hr, hperm.trans (mergeRuns_perm h L), hsorted⟩
      rw [if_pos hlt, hpass, hlevel]
      exact hsort
    · have hsorted := hruns.sorted (by omega)
      rw [if_neg hlt]
      exact ⟨src, L, rfl, hL, .refl L, by simpa using hsorted⟩

/-- With more elements, `level` wraps to zero before the runs are long enough. -/
theorem sortLoop_diverges {w : ℕ} (hW : W = 2 ^ w) (hcount : W < 4 * count) (turns fuel : ℕ)
    (hlevel : level = 0 ∨ ∃ k, k < w ∧ level = 2 ^ k) (dst : ℕ → α) :
    sortLoop W less count turns fuel level src dst = none := by
  subst hW
  have hpos : 0 < count := Nat.pos_of_ne_zero fun h0 => by simp [h0] at hcount
  induction fuel generalizing level src dst with
  | zero => rfl
  | succ fuel ih =>
    have hlt : level / 2 < count := by
      rcases hlevel with rfl | ⟨k, hk, rfl⟩
      · exact hpos
      · have : 2 ^ k ≤ 2 ^ (w - 1) := Nat.pow_le_pow_right (by decide) (by omega)
        have hdouble : 2 ^ w = 2 * 2 ^ (w - 1) := by
          rw [← pow_succ']
          congr 1
          omega
        omega
    have hnext : level * 2 % 2 ^ w = 0 ∨ ∃ k, k < w ∧ level * 2 % 2 ^ w = 2 ^ k := by
      rcases hlevel with rfl | ⟨k, hk, rfl⟩
      · left
        simp
      · rw [← pow_succ]
        rcases Nat.lt_or_ge (k + 1) w with hk' | hk'
        · exact .inr ⟨k + 1, hk', Nat.mod_eq_of_lt (Nat.pow_lt_pow_right (by decide) hk')⟩
        · left
          rw [show k + 1 = w by omega, Nat.mod_self]
    rw [sortLoop, if_pos hlt]
    cases passLoop (2 ^ w) less count src level turns 0 dst 0 with
    | none => rfl
    | some dst₁ => exact ih hnext src

end MergeSort

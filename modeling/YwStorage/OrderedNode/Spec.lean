import YwStorage.OrderedNode.Basic

/-!
What a page is for: a list of entries in a bounded space. Removing an entry gives its slot back, but
not the bytes of its record.
-/
namespace YwStorage.OrderedNode

variable {κ α : Type*} [LinearOrder α] (c : Config) (size : κ → ℕ) (key : κ → α)

/-- `used` are the bytes that records have taken since the page was cleared. -/
structure AbsPage (κ : Type*) where
  entries : List κ
  used : ℕ

/-- The entries before the first that is above `v`. -/
def below (v : κ) (l : List κ) : List κ := l.takeWhile fun x => key x ≤ key v

/-- The entries from the first on that is above `v`. -/
def above (v : κ) (l : List κ) : List κ := l.dropWhile fun x => key x ≤ key v

namespace AbsPage
variable (a : AbsPage κ)

def empty : AbsPage κ := ⟨[], 0⟩

def Sorted : Prop := a.entries.Pairwise fun x y => key x ≤ key y

/-- There is space for one more slot and its record. -/
def Fits (v : κ) : Prop :=
  a.entries.length * c.slotSize + a.used + (size v + c.slotSize) ≤ c.bodySize

instance (v : κ) : Decidable (a.Fits c size v) := inferInstanceAs (Decidable (_ ≤ _))

/-- The entry goes behind all that are not above it. -/
def insert (v : κ) : Bool × AbsPage κ :=
  if a.Fits c size v then
    (true, ⟨below key v a.entries ++ v :: above key v a.entries, a.used + size v⟩)
  else (false, a)

def append (v : κ) : Bool × AbsPage κ :=
  if a.Fits c size v then (true, ⟨a.entries ++ [v], a.used + size v⟩) else (false, a)

def removeAt (i : ℕ) : Bool × AbsPage κ :=
  if i < a.entries.length then (true, { a with entries := a.entries.eraseIdx i }) else (false, a)

/-- Drops the last entry that is not above `v`, if it has the key of `v`. -/
def removeKey (v : κ) : Bool × AbsPage κ :=
  match (below key v a.entries).getLast? with
  | some x =>
    if key x = key v then
      (true, { a with entries := (below key v a.entries).dropLast ++ above key v a.entries })
    else (false, a)
  | none => (false, a)

/-- Replaces the last entry that is not above `v`, or else the first entry, by one of its size. -/
def update (v : κ) : Bool × AbsPage κ :=
  match a.entries[(below key v a.entries).length - 1]? with
  | some x =>
    if size v = size x then
      (true, { a with entries := a.entries.set ((below key v a.entries).length - 1) v })
    else (false, a)
  | none => (false, a)

end AbsPage

section Cut
variable {key} {l us vs : List κ} {v : κ}

theorem below_append_above (key : κ → α) (v : κ) (l : List κ) :
    below key v l ++ above key v l = l :=
  List.takeWhile_append_dropWhile

theorem le_of_mem_below {x : κ} (h : x ∈ below key v l) : key x ≤ key v := by
  induction l with
  | nil => simp [below] at h
  | cons y l ih =>
    by_cases hle : key y ≤ key v
    · have hmem : x = y ∨ x ∈ below key v l := by simpa [below, hle] using h
      rcases hmem with rfl | hx
      · exact hle
      · exact ih hx
    · simp [below, hle] at h

/-- In a sorted list everything behind the cut is above. -/
theorem lt_of_mem_above (hs : l.Pairwise fun x y => key x ≤ key y) {x : κ}
    (h : x ∈ above key v l) : key v < key x := by
  induction l with
  | nil => simp [above] at h
  | cons y l ih =>
    obtain ⟨hy, hl⟩ := List.pairwise_cons.mp hs
    by_cases hle : key y ≤ key v
    · refine ih hl ?_
      simpa [above, hle] using h
    · have hvy := not_le.mp hle
      have hmem : x ∈ y :: l := by simpa [above, hle] using h
      rcases List.mem_cons.mp hmem with rfl | hx
      · exact hvy
      · exact hvy.trans_le (hy x hx)

theorem AbsPage.Sorted.insert {a : AbsPage κ} (hs : a.Sorted key) (v : κ) :
    (below key v a.entries ++ v :: above key v a.entries).Pairwise fun x y => key x ≤ key y := by
  have hcut := below_append_above key v a.entries
  have hpair := hs
  rw [AbsPage.Sorted, ← hcut, List.pairwise_append] at hpair
  refine List.pairwise_append.mpr ⟨hpair.1, List.pairwise_cons.mpr ⟨fun x hx => ?_, hpair.2.1⟩, ?_⟩
  · exact (lt_of_mem_above hs hx).le
  · intro x hx y hy
    rcases List.mem_cons.mp hy with rfl | hy
    · exact le_of_mem_below hx
    · exact hpair.2.2 x hx y hy

theorem below_of_cut (hu : ∀ x ∈ us, key x ≤ key v) (hv : ∀ x ∈ vs, key v < key x) :
    below key v (us ++ vs) = us := by
  rw [below, List.takeWhile_append_of_pos (by simpa using hu)]
  cases vs with
  | nil => simp
  | cons x vs => simp [hv x (by simp)]

theorem above_of_cut (hu : ∀ x ∈ us, key x ≤ key v) (hv : ∀ x ∈ vs, key v < key x) :
    above key v (us ++ vs) = vs := by
  rw [above, List.dropWhile_append_of_pos (by simpa using hu)]
  cases vs with
  | nil => simp
  | cons x vs => simp [hv x (by simp)]

end Cut
end YwStorage.OrderedNode

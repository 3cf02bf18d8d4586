import YwStorage.OrderedNode.Searchable

/-!
The calls of a page that compare keys, with `compare` of the key type as the code has it. Where
`compare` gives the order of the keys, they do what the calls by that order do.
-/
namespace YwStorage.OrderedNode
open Bytes

namespace AbsPage
variable {κ α : Type*} [LinearOrder α] {c : Config} {size : κ → ℕ} {key : κ → α} {v : κ}
  {a : AbsPage κ}

theorem insert_entries_perm (h : a.Fits c size v) :
    (a.insert c size key v).2.entries.Perm (v :: a.entries) := by
  have hcut := below_append_above key v a.entries
  rw [insert, if_pos h]
  refine List.perm_middle.trans (List.Perm.cons v ?_)
  rw [hcut]

theorem insert_sorted (h : a.Sorted key) :
    (a.insert c size key v).2.Sorted key := by
  rw [insert]
  split
  · exact h.insert v
  · exact h

end AbsPage

namespace Page
variable {κ α : Type*} [LinearOrder α]

section Calls
variable (c : Config) (d : Codec κ) (compare : κ → κ → Int32) (p : Page)

/-- `binary_search`. -/
def searchBy (value : κ) : ℤ :=
  searchLoop (fun mid => 0 < compare value (p.get c d mid)) (p.count + 1) 0 (p.count - 1)

/-- `insert`. -/
def insertBy (value : κ) : Bool × Page :=
  let (ret, p₁) := p.alloc c (c.wrap (d.size value))
  if ret = c.nullSlot then (false, p₁)
  else
    let p₂ := p₁.write d ret value
    let idx := c.wrap (p₂.searchBy c d compare value + 1)
    (true, (p₂.openSlot c idx).setSlot c idx ret)

/-- An `insert` that has succeeded. -/
def InsertStep (p : Page) (value : κ) (q : Page) : Prop :=
  p.insertBy c d compare value = (true, q)

end Calls

variable {c : Config} {d : Codec κ} {compare : κ → κ → Int32} {key : κ → α} {p q : Page} {v : κ}
  {a : AbsPage κ} {rs : List (ℕ × κ)} {vs : List κ}

/-- A search only asks for entries of the page. -/
theorem searchLoop_congr {less less' : ℕ → Bool} {fuel n : ℕ} {min max : ℤ} (hmin : 0 ≤ min)
    (hmax : max < n) (h : ∀ i, i < n → less i = less' i) :
    searchLoop less fuel min max = searchLoop less' fuel min max := by
  induction fuel generalizing min max with
  | zero => rfl
  | succ fuel ih =>
    rw [searchLoop, searchLoop]
    by_cases hle : min ≤ max
    · rw [if_pos hle, if_pos hle]
      simp only [h ((min + max) / 2).toNat (by omega)]
      rw [ih hmin (show (min + max) / 2 - 1 < n by omega),
        ih (show 0 ≤ (min + max) / 2 + 1 by omega) hmax]
    · rw [if_neg hle, if_neg hle]

theorem searchBy_eq (hrep : Rep c d p rs)
    (hkey : ∀ x ∈ rs.map Prod.snd, 0 < compare v x ↔ key v < key x) :
    p.searchBy c d compare v = p.binarySearch c d key v := by
  refine searchLoop_congr (n := p.count) le_rfl (by omega) fun i hi => ?_
  have hi' : i < rs.length := hrep.count ▸ hi
  rw [hrep.get_eq_getElem hi']
  exact decide_eq_decide.mpr (hkey _ (List.mem_map_of_mem (List.getElem_mem hi')))

/-- Where `compare` orders the new key against those of the page, `insert` goes by the order. -/
theorem insertBy_eq (h : Abstracts c d p a rs) (hsize : d.size v < 256 ^ c.slotSize)
    (hkey : ∀ x ∈ a.entries, 0 < compare v x ↔ key v < key x) :
    p.insertBy c d compare v = p.insert c d key v := by
  rw [insertBy, insert]
  by_cases hfits : rs.length * c.slotSize + (d.size v + c.slotSize) ≤ p.freeOffset
  · obtain ⟨halloc, hnull⟩ := alloc_fits h.rep hsize hfits
    rw [← h.entries] at hkey
    rw [halloc]
    simp only [if_neg hnull]
    rw [searchBy_eq (h.rep.write_new v hfits).rep hkey]
  · rw [alloc_full h.rep hsize hfits]
    simp only [if_true]

/-- The page holds the values `vs`, in the order of their keys. -/
def Holding (c : Config) (d : Codec κ) (key : κ → α) (p : Page) (vs : List κ) : Prop :=
  ∃ a rs, Abstracts c d p a rs ∧ a.Sorted key ∧ a.entries.Perm vs

theorem Holding.insertStep (h : Holding c d key p vs) (hsize : ∀ v, d.size v < 256 ^ c.slotSize)
    (hkey : ∀ x ∈ vs, 0 < compare v x ↔ key v < key x) (hstep : InsertStep c d compare p v q) :
    Holding c d key q (v :: vs) := by
  obtain ⟨a, rs, habs, hs, hperm⟩ := h
  rw [InsertStep, insertBy_eq habs (hsize v) fun x hx => hkey x (hperm.subset hx)] at hstep
  obtain ⟨rs', hreply, habs'⟩ := insert_spec habs (hsize v) hs
  rw [hstep] at hreply habs'
  have hfits : a.Fits c d.size v := by
    by_contra hfull
    rw [AbsPage.insert, if_neg hfull] at hreply
    cases hreply
  exact ⟨_, rs', habs', AbsPage.insert_sorted hs,
    (AbsPage.insert_entries_perm hfits).trans (hperm.cons v)⟩

/-- A run of inserts of keys that `compare` orders among each other. -/
theorem Holding.run {ws : List κ} (h : Holding c d key p vs)
    (hsize : ∀ v, d.size v < 256 ^ c.slotSize)
    (hkey : ∀ v ∈ vs ++ ws, ∀ x ∈ vs ++ ws, 0 < compare v x ↔ key v < key x)
    (hrun : Lts.Run (InsertStep c d compare) p ws q) : Holding c d key q (vs ++ ws) := by
  induction hrun generalizing vs with
  | refl => simpa using h
  | @stepL p p₁ q v ws hstep hrest ih =>
    have hmem : ∀ x, x ∈ v :: vs ++ ws → x ∈ vs ++ v :: ws := by
      intro x hx
      simp only [List.cons_append, List.mem_cons, List.mem_append] at hx ⊢
      tauto
    have hv : v ∈ vs ++ v :: ws := by simp
    have h₁ := h.insertStep hsize (fun x hx => hkey v hv x (by simp [hx])) hstep
    obtain ⟨a, rs, habs, hs, hperm⟩ :=
      ih h₁ fun v hv x hx => hkey v (hmem v hv) x (hmem x hx)
    exact ⟨a, rs, habs, hs, hperm.trans List.perm_middle.symm⟩

theorem holding_clear (c : Config) (d : Codec κ) (key : κ → α) (p : Page) :
    Holding c d key (p.clear c) [] :=
  ⟨.empty, [], abstracts_clear c d p, List.Pairwise.nil, List.Perm.nil⟩

/-- The search for a key of the page ends at it. -/
theorem Holding.searchBy_found (h : Holding c d key p vs)
    (hkey : ∀ v ∈ vs, ∀ x ∈ vs, 0 < compare v x ↔ key v < key x) (hv : v ∈ vs) :
    ∃ i : ℕ, p.searchBy c d compare v = i ∧ i < p.count ∧ key (p.get c d i) = key v := by
  obtain ⟨a, rs, habs, hs, hperm⟩ := h
  have hcmp : ∀ x ∈ rs.map Prod.snd, 0 < compare v x ↔ key v < key x := fun x hx => by
    rw [habs.entries] at hx
    exact hkey v hv x (hperm.subset hx)
  rw [searchBy_eq habs.rep hcmp]
  exact found_of_abstracts habs hs (hperm.symm.subset hv) rfl

end Page
end YwStorage.OrderedNode

import YwStorage.OrderedNode.Directory

/-! `sort` with every access to its two buffers checked, and what it makes of the directory. -/
namespace YwStorage.OrderedNode
open Bytes Slots MergeRuns

namespace Page
variable {κ α : Type*} [LinearOrder α]

section Defs
variable (c : Config) (d : Codec κ) (key : κ → α) (p : Page)

/-- The slots in use. -/
def slots : List ℕ := (List.range p.count).map (p.slot c)

def slotLess (a b : ℕ) : Bool := decide (key (d.load p.bytes a) < key (d.load p.bytes b))

/-- `sort`, which fails at an access to a buffer outside its first `count` places. -/
def checkedSort (fuel : ℕ) (buf : ℕ → ℕ) : Option Page := do
  let src ← MergeSort.sortLoop (256 ^ c.slotSize) (p.slotLess d key) p.count fuel fuel 2
    (p.slot c) buf
  return copySlots c src p.count p

/-- The directory of `q` is that of `p` in the order of the records, which stay as they are. -/
structure Arranged (q : Page) : Prop where
  frame : Frame p q (p.count * c.slotSize)
  perm : (q.slots c).Perm (p.slots c)
  sorted : (q.slots c).Pairwise fun a b => key (d.load p.bytes a) ≤ key (d.load p.bytes b)

end Defs

variable {c : Config} {d : Codec κ} {key : κ → α} {p q : Page} {fuel : ℕ} {buf : ℕ → ℕ}

theorem reads_slots (p : Page) : Reads (p.slot c) 0 (p.slots c) :=
  reads_map_range (p.slot c) p.count

theorem length_slots (p : Page) : (p.slots c).length = p.count := by simp [slots]

theorem getElem_slots {i : ℕ} (hi : i < (p.slots c).length) : (p.slots c)[i] = p.slot c i := by
  simp [slots]

theorem sort_of_checked (hcount : 4 * p.count ≤ 256 ^ c.slotSize)
    (hsort : p.checkedSort c d key fuel buf = some q) : p.sort c d key fuel buf = some q := by
  obtain ⟨src, hloop, hcopy⟩ := Option.bind_eq_some_iff.mp hsort
  exact Option.bind_eq_some_iff.mpr ⟨src, sortLoop_of_checked hcount hloop, hcopy⟩

/-- A page that is not too full is sorted, whatever the second buffer holds. -/
theorem checkedSort_spec (d : Codec κ) (key : κ → α) (hcount : 4 * p.count ≤ 256 ^ c.slotSize)
    (hfuel : p.count < fuel) (buf : ℕ → ℕ) :
    ∃ q, p.checkedSort c d key fuel buf = some q ∧ Arranged c d key p q := by
  obtain ⟨src, L, hloop, hreads, hperm, hsorted⟩ : ∃ src L,
      MergeSort.sortLoop (256 ^ c.slotSize) (p.slotLess d key) p.count fuel fuel 2 (p.slot c) buf =
          some src ∧ Reads src 0 L ∧ L.Perm (p.slots c) ∧
        L.Pairwise fun x y => p.slotLess d key y x = false := by
    refine MergeSort.sortLoop_spec (h := 1) ?_ ?_ fuel (reads_slots p) (length_slots p) Nat.one_pos
      (runsSorted_one _) hcount c.slot_le hfuel (by omega) (by omega) buf
    · intro x y z hxy hyz
      simp only [slotLess, decide_eq_false_iff_not, not_lt] at hxy hyz ⊢
      exact hxy.trans hyz
    · intro x y
      simp only [slotLess, decide_eq_false_iff_not, not_lt]
      exact le_total _ _
  have hlen : L.length = p.count := hperm.length_eq.trans (length_slots p)
  obtain ⟨hframe, hslot⟩ := copySlots_spec (c := c) src p.count p fun i hi => by
    have hi' : i < L.length := by omega
    obtain ⟨j, -, heq⟩ := List.mem_map.mp (hperm.subset (List.getElem_mem hi'))
    rw [hreads.get hi', ← heq]
    exact slot_lt p j
  have hslots : (copySlots c src p.count p).slots c = L := by
    refine List.ext_getElem ?_ fun i hi hi' => ?_
    · rw [length_slots, hframe.count, hlen]
    · rw [getElem_slots, hslot i (by omega), hreads.get hi']
  refine ⟨copySlots c src p.count p, ?_, hframe, ?_, ?_⟩
  · rw [checkedSort, hloop]
    rfl
  · rw [hslots]
    exact hperm
  · rw [hslots]
    exact hsorted.imp fun h => by simpa [slotLess] using h

theorem one_lt_slotBits (c : Config) : 1 < 8 * c.slotSize := by
  have := c.slotSize_pos
  omega

theorem sort_diverges (hcount : 256 ^ c.slotSize < 4 * p.count) (fuel : ℕ) (buf : ℕ → ℕ) :
    p.sort c d key fuel buf = none := by
  have hloop : ∀ less, sortLoop c less p.count fuel fuel 2 (p.slot c) buf = none := fun _ =>
    sortLoop_diverges hcount fuel fuel (.inr ⟨1, one_lt_slotBits c, rfl⟩) buf
  rw [sort, hloop]
  rfl

theorem checkedSort_diverges (hcount : 256 ^ c.slotSize < 4 * p.count) (fuel : ℕ) (buf : ℕ → ℕ) :
    p.checkedSort c d key fuel buf = none := by
  have hpow : 256 ^ c.slotSize = 2 ^ (8 * c.slotSize) := by
    rw [pow_mul]
    norm_num
  have hloop : MergeSort.sortLoop (256 ^ c.slotSize) (p.slotLess d key) p.count fuel fuel 2
      (p.slot c) buf = none :=
    MergeSort.sortLoop_diverges hpow hcount fuel fuel (.inr ⟨1, one_lt_slotBits c, rfl⟩) buf
  rw [checkedSort, hloop]
  rfl

end Page
end YwStorage.OrderedNode

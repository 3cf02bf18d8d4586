import YwStorage.OrderedNode.Writes

/-!
What holds of a page whatever the sizes of its records. The size of a record is cut to a `SLOT`
before space is given out for it, and then all of the record is written; the directory stays below
the offsets it holds even so.
-/
namespace YwStorage.OrderedNode
open Bytes Slots

namespace Page
variable {κ α : Type*} [LinearOrder α] {c : Config} {d : Codec κ} {key : κ → α} {p q : Page} {v : κ}

/-- The directory ends below the free offset, and the offsets that it holds are not below it. -/
structure Placed (c : Config) (p : Page) : Prop where
  room : p.count * c.slotSize ≤ p.freeOffset
  free_le : p.freeOffset ≤ c.bodySize
  above : ∀ i, i < p.count → p.freeOffset ≤ p.slot c i

theorem placed_clear (c : Config) (p : Page) : Placed c (p.clear c) := by
  refine ⟨?_, ?_, fun i hi => absurd hi (Nat.not_lt_zero i)⟩
  · simp [clear]
  · rw [clear_freeOffset]

namespace Placed

theorem getFree_eq (h : Placed c p) : p.getFree c = p.freeOffset - p.count * c.slotSize := by
  have hroom := h.room
  have hfree := h.free_le
  have hbody := c.bodySize_lt
  rw [getFree, ← Config.wrap_of_lt (c := c) (x := p.freeOffset - p.count * c.slotSize) (by omega),
    Nat.cast_sub hroom]
  push_cast
  rfl

theorem alloc_fits {size : ℕ} (h : Placed c p) (hfits : size + c.slotSize ≤ p.getFree c) :
    p.alloc c size = (p.freeOffset - size, { p with freeOffset := p.freeOffset - size }) ∧
      p.freeOffset - size ≠ c.nullSlot := by
  have hfree := h.free_le
  have hbody := c.bodySize_lt
  have hnull := c.nullSlot_eq
  have hget := h.getFree_eq
  have hoff : c.wrap (p.freeOffset - size : ℤ) = p.freeOffset - size := by
    rw [← Nat.cast_sub (by omega), Config.wrap_of_lt (by omega)]
  refine ⟨?_, by omega⟩
  rw [alloc, if_pos hfits, hoff]

end Placed

/-- The page after `alloc` and the write of the record. -/
def taken (c : Config) (d : Codec κ) (p : Page) (v : κ) : Page :=
  ({ p with freeOffset := p.freeOffset - c.wrap (d.size v) } : Page).write d
    (p.freeOffset - c.wrap (d.size v)) v

section Taken
variable (h : Placed c p) (hfits : c.wrap (d.size v) + c.slotSize ≤ p.getFree c)
include h hfits

theorem taken_room : (p.count + 1) * c.slotSize ≤ (taken c d p v).freeOffset := by
  have hget := h.getFree_eq
  have hroom := h.room
  show (p.count + 1) * c.slotSize ≤ p.freeOffset - c.wrap (d.size v)
  rw [Nat.succ_mul]
  omega

theorem taken_slot {i : ℕ} (hi : i < p.count) : (taken c d p v).slot c i = p.slot c i := by
  have hroom : (p.count + 1) * c.slotSize ≤ p.freeOffset - c.wrap (d.size v) := taken_room h hfits
  refine slot_congr fun x hx => Codec.store_of_lt ?_
  have hend := slot_end_le (c := c) (show i < p.count + 1 by omega)
  omega

theorem count_lt : p.count + 1 < 256 ^ c.slotSize := by
  have hroom := taken_room h hfits
  have hfree : (taken c d p v).freeOffset ≤ p.freeOffset := Nat.sub_le ..
  have hle := h.free_le
  have hbody := c.bodySize_lt
  have hmul := Nat.le_mul_of_pos_right (p.count + 1) c.slotSize_pos
  omega

end Taken

/-- A record too long for its `SLOT` is refused by what is left of its size. -/
theorem alloc_refused {size : ℕ} (hfull : ¬size + c.slotSize ≤ p.getFree c) :
    p.alloc c size = (c.nullSlot, p) := if_neg hfull

theorem append_taken (h : Placed c p) (hfits : c.wrap (d.size v) + c.slotSize ≤ p.getFree c) :
    p.append c d v = (true, { (taken c d p v).setSlot c p.count (taken c d p v).freeOffset with
      count := p.count + 1 }) := by
  obtain ⟨halloc, hnull⟩ := h.alloc_fits hfits
  have hcount : c.wrap (p.count + 1 : ℤ) = p.count + 1 := Config.wrap_of_lt (count_lt h hfits)
  rw [append, halloc]
  simp only [if_neg hnull]
  exact congrArg (fun n => (true, ({ (taken c d p v).setSlot c p.count
    (taken c d p v).freeOffset with count := n } : Page))) hcount

theorem append_refused (hfull : ¬c.wrap (d.size v) + c.slotSize ≤ p.getFree c) :
    p.append c d v = (false, p) := by
  rw [append, alloc_refused hfull]
  exact if_pos rfl

theorem insert_refused (hfull : ¬c.wrap (d.size v) + c.slotSize ≤ p.getFree c) :
    p.insert c d key v = (false, p) := by
  rw [insert, alloc_refused hfull]
  exact if_pos rfl

/-- Whatever the page holds, the search ends inside the interval or one below it. -/
theorem searchLoop_mem (less : ℕ → Bool) (fuel : ℕ) {min max : ℤ} (hle : min ≤ max + 1) :
    min - 1 ≤ searchLoop less fuel min max ∧ searchLoop less fuel min max ≤ max := by
  induction fuel generalizing min max with
  | zero =>
    rw [searchLoop]
    omega
  | succ fuel ih =>
    rw [searchLoop]
    by_cases hin : min ≤ max
    · simp only [if_pos hin]
      by_cases hless : less ((min + max) / 2).toNat = true
      · have := ih (show min ≤ (min + max) / 2 - 1 + 1 by omega)
        rw [if_pos hless]
        omega
      · have := ih (show (min + max) / 2 + 1 ≤ max + 1 by omega)
        rw [if_neg hless]
        omega
    · rw [if_neg hin]
      omega

theorem binarySearch_mem (c : Config) (d : Codec κ) (key : κ → α) (p : Page) (v : κ) :
    -1 ≤ p.binarySearch c d key v ∧ p.binarySearch c d key v < p.count := by
  have := searchLoop_mem (fun mid => decide (key v < key (p.get c d mid))) (p.count + 1)
    (show (0 : ℤ) ≤ (p.count : ℤ) - 1 + 1 by omega)
  rw [binarySearch]
  omega

/-- Where `insert` puts the slot of the new record. -/
def place (c : Config) (d : Codec κ) (key : κ → α) (p : Page) (v : κ) : ℕ :=
  c.wrap ((taken c d p v).binarySearch c d key v + 1)

theorem place_le (h : Placed c p) (hfits : c.wrap (d.size v) + c.slotSize ≤ p.getFree c) :
    place c d key p v ≤ p.count := by
  obtain ⟨hlo, hhi⟩ := binarySearch_mem c d key (taken c d p v) v
  have hcount : (taken c d p v).count = p.count := rfl
  have hlt := count_lt h hfits
  obtain ⟨i, hi⟩ := Int.eq_ofNat_of_zero_le
    (show 0 ≤ (taken c d p v).binarySearch c d key v + 1 by omega)
  rw [place, hi, Config.wrap_of_lt (by omega)]
  omega

theorem insert_taken (h : Placed c p) (hfits : c.wrap (d.size v) + c.slotSize ≤ p.getFree c) :
    p.insert c d key v = (true, ((taken c d p v).openSlot c (place c d key p v)).setSlot c
      (place c d key p v) (taken c d p v).freeOffset) := by
  obtain ⟨halloc, hnull⟩ := h.alloc_fits hfits
  rw [insert, halloc]
  exact if_neg hnull

theorem free_lt (h : Placed c p) : p.freeOffset < 256 ^ c.slotSize := by
  have hfree := h.free_le
  have hbody := c.bodySize_lt
  omega

theorem taken_freeOffset_lt (h : Placed c p) : (taken c d p v).freeOffset < 256 ^ c.slotSize := by
  have hle : (taken c d p v).freeOffset ≤ p.freeOffset := Nat.sub_le ..
  have hlt := free_lt h
  omega

theorem placed_append (h : Placed c p) (v : κ) : Placed c (p.append c d v).2 := by
  by_cases hfits : c.wrap (d.size v) + c.slotSize ≤ p.getFree c
  · rw [append_taken h hfits]
    have hle : (taken c d p v).freeOffset ≤ p.freeOffset := Nat.sub_le ..
    refine ⟨taken_room h hfits, hle.trans h.free_le, fun i hi => ?_⟩
    rcases Nat.lt_or_eq_of_le (Nat.le_of_lt_succ hi) with hlt | rfl
    · have hslot : ((taken c d p v).setSlot c p.count (taken c d p v).freeOffset).slot c i =
          p.slot c i :=
        (slot_setSlot_of_ne _ _ (by omega)).trans (taken_slot h hfits hlt)
      exact hle.trans ((h.above i hlt).trans_eq hslot.symm)
    · exact (slot_setSlot_self (taken c d p v) p.count (taken_freeOffset_lt h)).ge
  · rw [append_refused hfits]
    exact h

theorem placed_insert (h : Placed c p) (v : κ) : Placed c (p.insert c d key v).2 := by
  by_cases hfits : c.wrap (d.size v) + c.slotSize ≤ p.getFree c
  · have hplace : place c d key p v ≤ (taken c d p v).count := place_le h hfits
    obtain ⟨hcount, hfree, -, hslot⟩ :=
      openSlot_spec (taken c d p v) hplace (taken_freeOffset_lt h)
    have hlt := count_lt h hfits
    have hcount' : c.wrap (((taken c d p v).count : ℤ) + 1) = p.count + 1 :=
      Config.wrap_of_lt hlt
    have hle : (taken c d p v).freeOffset ≤ p.freeOffset := Nat.sub_le ..
    rw [insert_taken h hfits]
    refine ⟨?_, ?_, fun i hi => ?_⟩
    · rw [hcount, hfree, hcount']
      exact taken_room h hfits
    · rw [hfree]
      exact hle.trans h.free_le
    · rw [hcount, hcount'] at hi
      rw [hfree, hslot i (Nat.le_of_lt_succ hi)]
      have hplace' : place c d key p v ≤ p.count := hplace
      split
      · rw [taken_slot h hfits (by omega)]
        exact hle.trans (h.above i (by omega))
      · split
        · exact le_rfl
        · rw [taken_slot h hfits (by omega)]
          exact hle.trans (h.above _ (by omega))
  · rw [insert_refused hfits]
    exact h

/-- The page after a call that only moves slots. -/
theorem Placed.of_slots (h : Placed c p) (hcount : q.count ≤ p.count)
    (hfree : q.freeOffset = p.freeOffset)
    (hslot : ∀ i, i < q.count → ∃ j, j < p.count ∧ q.slot c i = p.slot c j) : Placed c q := by
  refine ⟨?_, hfree.trans_le h.free_le, fun i hi => ?_⟩
  · rw [hfree]
    exact (Nat.mul_le_mul_right _ hcount).trans h.room
  · obtain ⟨j, hj, heq⟩ := hslot i hi
    rw [hfree, heq]
    exact h.above j hj

theorem placed_removeAt (h : Placed c p) (idx : ℕ) : Placed c (p.removeAt c idx).2 := by
  rw [removeAt]
  by_cases hidx : p.count ≤ idx
  · rw [if_pos hidx]
    exact h
  · obtain ⟨hframe, hslot⟩ := shiftDown_spec (c := c) idx (p.count - 1 - idx) p
    have hlt : p.count - 1 < 256 ^ c.slotSize := by
      have hroom := h.room
      have hmul := Nat.le_mul_of_pos_right p.count c.slotSize_pos
      have hfree := free_lt h
      omega
    have hcount : c.wrap ((shiftDown c idx (p.count - 1 - idx) p).count - 1 : ℤ) =
        p.count - 1 := by
      rw [hframe.count, ← Config.wrap_of_lt hlt]
      congr 1
      omega
    rw [if_neg hidx]
    simp only [hcount]
    refine h.of_slots (Nat.sub_le ..) hframe.freeOffset fun i hi => ?_
    change i < p.count - 1 at hi
    by_cases hmoved : idx ≤ i ∧ i < idx + (p.count - 1 - idx)
    · exact ⟨i + 1, by omega, (hslot i).trans (if_pos hmoved)⟩
    · exact ⟨i, by omega, (hslot i).trans (if_neg hmoved)⟩

theorem placed_removeKey (h : Placed c p) (v : κ) : Placed c (p.removeKey c d key v).2 := by
  rw [removeKey]
  generalize c.wrap (p.binarySearch c d key v) = idx
  by_cases hidx : 0 ≤ idx ∧ idx < p.count
  · simp only [if_pos hidx]
    by_cases hkey : key v = key (p.get c d idx)
    · rw [if_pos hkey]
      exact placed_removeAt h idx
    · rw [if_neg hkey]
      exact h
  · simp only [if_neg hidx]
    exact h

theorem placed_inplaceUpdate (h : Placed c p) (v : κ) :
    Placed c (p.inplaceUpdate c d key v).2 := by
  rw [inplaceUpdate]
  generalize hidx : (if p.binarySearch c d key v < 0 then 0 else p.binarySearch c d key v) = idx
  have hnonneg : 0 ≤ idx := by
    rw [← hidx]
    split <;> omega
  by_cases hlt : idx < p.count
  · simp only [if_pos hlt]
    by_cases hsize : d.size v = d.size (p.get c d idx.toNat)
    · rw [if_pos hsize]
      refine h.of_slots le_rfl rfl fun i hi => ⟨i, hi, slot_congr fun x hx => ?_⟩
      have hroom := h.room
      have habove := h.above idx.toNat (by omega)
      have hend := slot_end_le (c := c) (show i < p.count from hi)
      exact Codec.store_of_lt (by omega)
    · rw [if_neg hsize]
      exact h
  · simp only [if_neg hlt]
    exact h

theorem placed_of_arranged (h : Placed c p) (harr : Arranged c d key p q) : Placed c q := by
  refine h.of_slots harr.frame.count.le harr.frame.freeOffset fun i hi => ?_
  have hi' : i < (q.slots c).length := by rwa [length_slots]
  obtain ⟨j, hj, heq⟩ := List.mem_map.mp (harr.perm.subset (List.getElem_mem hi'))
  exact ⟨j, List.mem_range.mp hj, by rw [← getElem_slots hi', ← heq]⟩

/-- A sort that returns has found the page not too full. -/
theorem arranged_of_sort {fuel : ℕ} {buf : ℕ → ℕ} (hsort : p.sort c d key fuel buf = some q) :
    Arranged c d key p q := by
  have hcount : 4 * p.count ≤ 256 ^ c.slotSize := by
    by_contra hfull
    rw [sort_diverges (not_le.mp hfull)] at hsort
    cases hsort
  obtain ⟨q', hq', harr⟩ := checkedSort_spec d key hcount
    (Nat.lt_succ_of_le (Nat.le_max_right fuel p.count)) buf
  have heq := sort_mono (Nat.le_succ_of_le (Nat.le_max_left fuel p.count)) hsort
  obtain rfl := Option.some.inj (heq.symm.trans (sort_of_checked hcount hq'))
  exact harr

/-- A call that returns, on any page. -/
def Called (c : Config) (d : Codec κ) (key : κ → α) (p : Page) (x : Op κ × Reply κ) (q : Page) :
    Prop :=
  ∃ fuel buf, p.call c d key fuel buf x.1 = some (x.2, q)

theorem placed_of_called {x : Op κ × Reply κ} (hcall : Called c d key p x q) (h : Placed c p) :
    Placed c q := by
  obtain ⟨op, r⟩ := x
  obtain ⟨fuel, buf, hcall⟩ := hcall
  have hsnd : ∀ s : Bool × Page, Placed c s.2 → some (s.map Reply.done id) = some (r, q) →
      Placed c q := by
    intro s hs heq
    obtain ⟨-, rfl⟩ := Prod.mk.inj (Option.some.inj heq)
    exact hs
  cases op with
  | insert v => exact hsnd _ (placed_insert h v) hcall
  | append v => exact hsnd _ (placed_append h v) hcall
  | removeAt idx => exact hsnd _ (placed_removeAt h idx) hcall
  | removeKey v => exact hsnd _ (placed_removeKey h v) hcall
  | inplaceUpdate v => exact hsnd _ (placed_inplaceUpdate h v) hcall
  | sort =>
    obtain ⟨q', hsort, heq⟩ := Option.map_eq_some_iff.mp hcall
    obtain ⟨-, rfl⟩ := Prod.mk.inj heq
    exact placed_of_arranged h (arranged_of_sort hsort)
  | get idx =>
    obtain ⟨-, rfl⟩ := Prod.mk.inj (Option.some.inj hcall)
    exact h

/-- The layout of every page that calls make from a cleared one. -/
theorem placed_of_run {p₀ : Page} {xs : List (Op κ × Reply κ)}
    (hrun : Lts.Run (Called c d key) (p₀.clear c) xs p) : Placed c p :=
  hrun.invariant (fun _ _ _ => placed_of_called) (placed_clear c p₀)

end Page
end YwStorage.OrderedNode

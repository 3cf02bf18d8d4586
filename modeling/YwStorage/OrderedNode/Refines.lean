import YwStorage.OrderedNode.CheckedSort
import YwStorage.OrderedNode.Records

/-! Every operation on the bytes of a page does to its records what the list operation does. -/
namespace YwStorage.OrderedNode
open Bytes Slots MergeRuns

namespace Page
variable {κ α : Type*} [LinearOrder α] {c : Config} {d : Codec κ} {key : κ → α} {p : Page}
  {rs us vs : List (ℕ × κ)} {v : κ} {a : AbsPage κ}

/-- The page holds the entries of `a` and has given out as many bytes. -/
structure Abstracts (c : Config) (d : Codec κ) (p : Page) (a : AbsPage κ) (rs : List (ℕ × κ)) :
    Prop where
  rep : Rep c d p rs
  entries : rs.map Prod.snd = a.entries
  used : p.freeOffset + a.used = c.bodySize

theorem getFree_eq (h : Rep c d p rs) : p.getFree c = p.freeOffset - rs.length * c.slotSize := by
  have hroom := h.room
  have hfree := h.free_le
  have hbody := c.bodySize_lt
  rw [getFree, h.count, ← Config.wrap_of_lt (c := c) (x := p.freeOffset - rs.length * c.slotSize)
    (by omega), Nat.cast_sub hroom]
  push_cast
  rfl

theorem Abstracts.fits_iff (h : Abstracts c d p a rs) :
    a.Fits c d.size v ↔ rs.length * c.slotSize + (d.size v + c.slotSize) ≤ p.freeOffset := by
  have hused := h.used
  rw [AbsPage.Fits, ← h.entries, List.length_map]
  omega

/-- Space for a slot and its record is given out at the free offset. -/
theorem alloc_fits (h : Rep c d p rs) (hsize : d.size v < 256 ^ c.slotSize)
    (hfits : rs.length * c.slotSize + (d.size v + c.slotSize) ≤ p.freeOffset) :
    p.alloc c (c.wrap (d.size v)) =
        (p.freeOffset - d.size v, { p with freeOffset := p.freeOffset - d.size v }) ∧
      p.freeOffset - d.size v ≠ c.nullSlot := by
  have hfree := h.free_le
  have hbody := c.bodySize_lt
  have hnull := c.nullSlot_eq
  have hoff : c.wrap (p.freeOffset - d.size v : ℤ) = p.freeOffset - d.size v := by
    rw [← Nat.cast_sub (by omega), Config.wrap_of_lt (by omega)]
  refine ⟨?_, by omega⟩
  rw [alloc, getFree_eq h, Config.wrap_of_lt hsize, if_pos (by omega), hoff]

theorem alloc_full (h : Rep c d p rs) (hsize : d.size v < 256 ^ c.slotSize)
    (hfull : ¬ rs.length * c.slotSize + (d.size v + c.slotSize) ≤ p.freeOffset) :
    p.alloc c (c.wrap (d.size v)) = (c.nullSlot, p) := by
  have hroom := h.room
  rw [alloc, getFree_eq h, Config.wrap_of_lt hsize, if_neg (by omega)]

theorem append_full (h : Rep c d p rs) (hsize : d.size v < 256 ^ c.slotSize)
    (hfull : ¬ rs.length * c.slotSize + (d.size v + c.slotSize) ≤ p.freeOffset) :
    p.append c d v = (false, p) := by
  rw [append, alloc_full h hsize hfull]
  simp only [if_true]

theorem insert_full (h : Rep c d p rs) (hsize : d.size v < 256 ^ c.slotSize)
    (hfull : ¬ rs.length * c.slotSize + (d.size v + c.slotSize) ≤ p.freeOffset) :
    p.insert c d key v = (false, p) := by
  rw [insert, alloc_full h hsize hfull]
  simp only [if_true]

/-- The search ends before the first value that is above. -/
theorem binarySearch_eq (h : Rep c d p (us ++ vs)) (hu : ∀ e ∈ us, key e.2 ≤ key v)
    (hv : ∀ e ∈ vs, key v < key e.2) : p.binarySearch c d key v = us.length - 1 := by
  have hcount := h.count
  rw [List.length_append] at hcount
  refine searchLoop_eq _ 0 _ (fun i hi => ?_) le_rfl (by omega) (by omega) (by omega)
  have hlt : i < (us ++ vs).length := by
    rw [List.length_append]
    omega
  rw [decide_eq_true_iff, h.get_eq_getElem hlt]
  by_cases hiu : i < us.length
  · rw [List.getElem_append_left hiu]
    have := hu _ (List.getElem_mem hiu)
    exact ⟨fun hlt' => absurd hlt' (not_lt.mpr this), fun hle => by omega⟩
  · rw [List.getElem_append_right (by omega)]
    exact ⟨fun _ => by omega, fun _ => hv _ (List.getElem_mem _)⟩

/-- The records on both sides of a value. -/
theorem exists_cut (hs : (rs.map Prod.snd).Pairwise fun x y => key x ≤ key y) (v : κ) :
    ∃ us vs, rs = us ++ vs ∧ (∀ e ∈ us, key e.2 ≤ key v) ∧ (∀ e ∈ vs, key v < key e.2) ∧
      below key v (rs.map Prod.snd) = us.map Prod.snd ∧
      above key v (rs.map Prod.snd) = vs.map Prod.snd := by
  have hcut : below key v (rs.map Prod.snd) ++ above key v (rs.map Prod.snd) = rs.map Prod.snd :=
    below_append_above key v _
  obtain ⟨us, vs, rfl, hus, hvs⟩ := List.map_eq_append_iff.mp hcut.symm
  refine ⟨us, vs, rfl, fun e he => ?_, fun e he => ?_, hus.symm, hvs.symm⟩
  · exact le_of_mem_below (hus ▸ List.mem_map_of_mem he)
  · exact lt_of_mem_above hs (hvs ▸ List.mem_map_of_mem he)

/-- The page after a record is written and its slot is filled. -/
theorem Abstracts.placed {q : Page} (h : Abstracts c d p a (us ++ vs))
    (hfits : (us ++ vs).length * c.slotSize + (d.size v + c.slotSize) ≤ p.freeOffset)
    (hrep : Rep c d q (us ++ (p.freeOffset - d.size v, v) :: vs))
    (hfree : q.freeOffset = p.freeOffset - d.size v) :
    Abstracts c d q ⟨us.map Prod.snd ++ v :: vs.map Prod.snd, a.used + d.size v⟩
      (us ++ (p.freeOffset - d.size v, v) :: vs) := by
  have hused := h.used
  refine ⟨hrep, by simp, ?_⟩
  rw [hfree]
  show p.freeOffset - d.size v + (a.used + d.size v) = c.bodySize
  omega

theorem append_spec (h : Abstracts c d p a rs) (hsize : d.size v < 256 ^ c.slotSize) :
    ∃ rs', (p.append c d v).1 = (a.append c d.size v).1 ∧
      Abstracts c d (p.append c d v).2 (a.append c d.size v).2 rs' := by
  by_cases hfits : rs.length * c.slotSize + (d.size v + c.slotSize) ≤ p.freeOffset
  · obtain ⟨halloc, hnull⟩ := alloc_fits h.rep hsize hfits
    have hrep := (h.rep.write_new v hfits).append_slot
    rw [append, halloc, AbsPage.append, if_pos (h.fits_iff.mpr hfits)]
    simp only [if_neg hnull]
    rw [← List.append_nil rs] at h hfits
    have hplaced := h.placed hfits (by simpa using hrep) rfl
    rw [← h.entries, List.append_nil]
    exact ⟨_, trivial, hplaced⟩
  · rw [append_full h.rep hsize hfits, AbsPage.append, if_neg (mt h.fits_iff.mp hfits)]
    exact ⟨rs, rfl, h⟩

theorem insert_spec (h : Abstracts c d p a rs) (hsize : d.size v < 256 ^ c.slotSize)
    (hs : a.Sorted key) :
    ∃ rs', (p.insert c d key v).1 = (a.insert c d.size key v).1 ∧
      Abstracts c d (p.insert c d key v).2 (a.insert c d.size key v).2 rs' := by
  by_cases hfits : rs.length * c.slotSize + (d.size v + c.slotSize) ≤ p.freeOffset
  · obtain ⟨halloc, hnull⟩ := alloc_fits h.rep hsize hfits
    have hw := h.rep.write_new v hfits
    rw [insert, halloc, AbsPage.insert, if_pos (h.fits_iff.mpr hfits)]
    simp only [if_neg hnull]
    rw [AbsPage.Sorted, ← h.entries] at hs
    obtain ⟨us, vs, rfl, hu, hv, hbelow, habove⟩ := exists_cut hs v
    have hlt : us.length < 256 ^ c.slotSize := by
      have hcount := hw.rep.count_le
      have ho := hw.lt_slot
      rw [hw.free, List.length_append] at hcount
      omega
    have hidx : c.wrap (binarySearch c d key (Page.write d
        { p with freeOffset := p.freeOffset - d.size v } (p.freeOffset - d.size v) v) v + 1) =
        us.length := by
      rw [binarySearch_eq hw.rep hu hv, Int.sub_add_cancel, Config.wrap_of_lt hlt]
    rw [hidx, ← h.entries, hbelow, habove]
    exact ⟨_, trivial, h.placed hfits hw.open_slot.1 hw.open_slot.2⟩
  · rw [insert_full h.rep hsize hfits, AbsPage.insert, if_neg (mt h.fits_iff.mp hfits)]
    exact ⟨rs, rfl, h⟩

/-- The page after one record is dropped. -/
theorem Abstracts.erased {e : ℕ × κ} (h : Abstracts c d p a (us ++ e :: vs)) :
    (p.removeAt c us.length).1 = true ∧ Abstracts c d (p.removeAt c us.length).2
      { a with entries := us.map Prod.snd ++ vs.map Prod.snd } (us ++ vs) := by
  have hcount := h.rep.count
  rw [List.length_append, List.length_cons] at hcount
  have hrep := h.rep.erase (n := p.count - 1 - us.length) (by omega)
  have hframe := (shiftDown_spec (c := c) us.length (p.count - 1 - us.length) p).1
  rw [removeAt, if_neg (by omega)]
  refine ⟨rfl, hrep, by simp, ?_⟩
  exact (congrArg (· + a.used) hframe.freeOffset).trans h.used

theorem removeAt_spec (h : Abstracts c d p a rs) (i : ℕ) :
    ∃ rs', (p.removeAt c i).1 = (a.removeAt i).1 ∧
      Abstracts c d (p.removeAt c i).2 (a.removeAt i).2 rs' := by
  have hcount := h.rep.count
  rw [AbsPage.removeAt, ← h.entries, List.length_map]
  by_cases hi : i < rs.length
  · rw [if_pos hi]
    obtain ⟨us, vs, hsplit, rfl⟩ := exists_split hi
    generalize rs[us.length] = e at hsplit
    subst hsplit
    have hidx : ((us ++ e :: vs).map Prod.snd).eraseIdx us.length =
        us.map Prod.snd ++ vs.map Prod.snd := by
      rw [List.map_append, List.eraseIdx_append_of_length_le (by simp)]
      simp
    rw [hidx]
    exact ⟨us ++ vs, h.erased⟩
  · rw [removeAt, if_pos (by omega), if_neg hi]
    exact ⟨rs, rfl, h⟩

theorem removeKey_spec (h : Abstracts c d p a rs) (hs : a.Sorted key) (v : κ) :
    ∃ rs', (p.removeKey c d key v).1 = (a.removeKey key v).1 ∧
      Abstracts c d (p.removeKey c d key v).2 (a.removeKey key v).2 rs' := by
  have hbody := c.bodySize_lt
  have hle := h.rep.count_le
  have hfree := h.rep.free_le
  have hcount := h.rep.count
  rw [AbsPage.Sorted, ← h.entries] at hs
  obtain ⟨us, vs, rfl, hu, hv, hbelow, habove⟩ := exists_cut hs v
  rw [removeKey, binarySearch_eq h.rep hu hv, AbsPage.removeKey, ← h.entries, hbelow, habove]
  rcases us.eq_nil_or_concat with rfl | ⟨us, e, rfl⟩
  · have hnull := c.nullSlot_eq
    have hidx : c.wrap ((List.length ([] : List (ℕ × κ)) : ℤ) - 1) = c.nullSlot := rfl
    simp only [hidx]
    rw [if_neg (by omega)]
    exact ⟨_, rfl, h⟩
  · rw [List.concat_eq_append, List.append_assoc, List.singleton_append] at h hcount hle
    rw [List.length_append, List.length_cons] at hcount hle
    have hidx : c.wrap (((us.concat e).length : ℤ) - 1) = us.length := by
      rw [List.length_concat, Nat.cast_succ, Int.add_sub_cancel, Config.wrap_of_lt (by omega)]
    have hlast : ((us.concat e).map Prod.snd).getLast? = some e.2 := by simp
    simp only [hidx, hlast]
    rw [if_pos ⟨Nat.zero_le _, by omega⟩, h.rep.get_eq]
    by_cases hkey : key v = key e.2
    · rw [if_pos hkey, if_pos hkey.symm]
      have hdrop : ((us.concat e).map Prod.snd).dropLast = us.map Prod.snd := by simp
      rw [hdrop]
      exact ⟨us ++ vs, h.erased⟩
    · rw [if_neg hkey, if_neg (Ne.symm hkey)]
      exact ⟨_, rfl, h⟩

/-- The page after one record is written over. -/
theorem Abstracts.overwritten {e : ℕ × κ} (h : Abstracts c d p a (us ++ e :: vs))
    (hv : d.size v = d.size e.2) :
    Abstracts c d (p.write d (p.slot c us.length) v)
      { a with entries := us.map Prod.snd ++ v :: vs.map Prod.snd } (us ++ (e.1, v) :: vs) := by
  rw [h.rep.slot_eq]
  exact ⟨h.rep.overwrite hv, by simp, h.used⟩

theorem inplaceUpdate_spec (h : Abstracts c d p a rs) (hs : a.Sorted key) (v : κ) :
    ∃ rs', (p.inplaceUpdate c d key v).1 = (a.update d.size key v).1 ∧
      Abstracts c d (p.inplaceUpdate c d key v).2 (a.update d.size key v).2 rs' := by
  have hcount := h.rep.count
  rw [AbsPage.Sorted, ← h.entries] at hs
  obtain ⟨us, vs, rfl, hu, hv, hbelow, -⟩ := exists_cut hs v
  rw [inplaceUpdate, binarySearch_eq h.rep hu hv, AbsPage.update, ← h.entries, hbelow]
  have hidx : (if (us.length - 1 : ℤ) < 0 then 0 else (us.length - 1 : ℤ)) =
      (us.length - 1 : ℕ) := by
    split
    · omega
    · omega
  rw [List.length_map]
  simp only [hidx, Int.toNat_natCast]
  by_cases hi : us.length - 1 < (us ++ vs).length
  · rw [if_pos (by omega)]
    generalize us.length - 1 = i at hi
    obtain ⟨us', vs', hsplit, rfl⟩ := exists_split hi
    generalize (us ++ vs)[us'.length] = e at hsplit
    rw [hsplit] at h ⊢
    have hget : ((us' ++ e :: vs').map Prod.snd)[us'.length]? = some e.2 := by simp
    have hset : ((us' ++ e :: vs').map Prod.snd).set us'.length v =
        us'.map Prod.snd ++ v :: vs'.map Prod.snd := by
      simp
    simp only [hget, hset, h.rep.get_eq]
    by_cases hsame : d.size v = d.size e.2
    · rw [if_pos hsame, if_pos hsame]
      exact ⟨_, rfl, h.overwritten hsame⟩
    · rw [if_neg hsame, if_neg hsame]
      exact ⟨_, rfl, h⟩
  · have hnone : ((us ++ vs).map Prod.snd)[us.length - 1]? = none := by
      rw [List.getElem?_eq_none_iff, List.length_map]
      omega
    rw [if_neg (by omega), hnone]
    exact ⟨_, rfl, h⟩

theorem sort_mono {fuel fuel' : ℕ} {buf : ℕ → ℕ} {q : Page} (hle : fuel ≤ fuel')
    (hsort : p.sort c d key fuel buf = some q) : p.sort c d key fuel' buf = some q := by
  obtain ⟨src, hloop, hcopy⟩ := Option.bind_eq_some_iff.mp hsort
  exact Option.bind_eq_some_iff.mpr ⟨src, sortLoop_mono hle hle hloop, hcopy⟩

/-- A page that is not too full is sorted, whatever the second buffer holds. -/
theorem sort_spec (key : κ → α) (h : Abstracts c d p a rs)
    (hcount : 4 * p.count ≤ 256 ^ c.slotSize) {fuel : ℕ} (hfuel : p.count < fuel) (buf : ℕ → ℕ) :
    ∃ q rs', p.sort c d key fuel buf = some q ∧ rs'.Perm rs ∧
      (rs'.map Prod.snd).Pairwise (fun x y => key x ≤ key y) ∧
      Abstracts c d q { a with entries := rs'.map Prod.snd } rs' := by
  -- the offset determines the record, so a permutation of the slots is one of the records
  let record := fun o => (o, d.load p.bytes o)
  have hrecords : (rs.map Prod.fst).map record = rs := by
    rw [List.map_map]
    refine (List.map_congr_left fun e he => ?_).trans (List.map_id rs)
    exact Prod.ext rfl (h.rep.vals e he).load
  have hslots : p.slots c = rs.map Prod.fst :=
    eq_of_reads (reads_slots p) h.rep.slots (by rw [length_slots, h.rep.count, List.length_map])
  obtain ⟨q, hsort, harr⟩ := checkedSort_spec d key hcount hfuel buf
  have hperm := harr.perm
  rw [hslots] at hperm
  have hrs : ((q.slots c).map record).Perm rs := by
    have := hperm.map record
    rwa [hrecords] at this
  refine ⟨q, (q.slots c).map record, sort_of_checked hcount hsort, hrs, ?_, ?_, rfl, ?_⟩
  · rw [List.map_map, List.pairwise_map]
    exact harr.sorted
  · refine h.rep.reorder hrs.subperm ?_ harr.frame.freeOffset ?_ ?_
    · rw [List.length_map, length_slots]
    · rw [List.map_map]
      simpa [record, Function.comp_def] using reads_slots (c := c) q
    · rw [← h.rep.count]
      exact harr.frame.bytes
  · exact (congrArg (· + a.used) harr.frame.freeOffset).trans h.used

end Page
end YwStorage.OrderedNode

import YwStorage.OrderedNode.Sort

/-! The slot directory in the bytes of a page: single stores, the shifting loops and the search. -/
namespace YwStorage.OrderedNode
open Bytes Slots

namespace Page
variable {κ α : Type*} [LinearOrder α] {c : Config} {d : Codec κ} {key : κ → α} {p : Page}
  {i j v x n idx : ℕ}

theorem slot_lt (p : Page) (i : ℕ) : p.slot c i < 256 ^ c.slotSize := load_lt _ _ _

@[simp] theorem write_count (p : Page) (o : ℕ) (v : κ) : (p.write d o v).count = p.count := rfl

@[simp] theorem write_freeOffset (p : Page) (o : ℕ) (v : κ) :
    (p.write d o v).freeOffset = p.freeOffset := rfl

/-- Slots do not overlap. -/
theorem slot_end_le (h : i < j) : i * c.slotSize + c.slotSize ≤ j * c.slotSize := by
  have := Nat.mul_le_mul_right c.slotSize h
  rwa [Nat.succ_mul] at this

theorem slot_setSlot_self (p : Page) (i : ℕ) (hv : v < 256 ^ c.slotSize) :
    (p.setSlot c i v).slot c i = v := by
  rw [slot, setSlot, load_store, Nat.mod_eq_of_lt hv]

theorem slot_setSlot_of_ne (p : Page) (v : ℕ) (h : j ≠ i) :
    (p.setSlot c i v).slot c j = p.slot c j := by
  refine load_congr fun t ht => ?_
  rcases Nat.lt_or_gt_of_ne h with hlt | hgt
  · have := slot_end_le (c := c) hlt
    exact store_of_lt (by omega)
  · have := slot_end_le (c := c) hgt
    exact store_of_le (by omega)

theorem setSlot_bytes (p : Page) (v : ℕ) (h : i * c.slotSize + c.slotSize ≤ x) :
    (p.setSlot c i v).bytes x = p.bytes x := store_of_le h

/-- The slots are read from their own bytes. -/
theorem slot_congr {q : Page} (h : ∀ x, x < i * c.slotSize + c.slotSize → q.bytes x = p.bytes x) :
    q.slot c i = p.slot c i := load_congr fun t ht => h _ (by omega)

/-- What a loop over the slots leaves alone. -/
structure Frame (p q : Page) (limit : ℕ) : Prop where
  count : q.count = p.count
  freeOffset : q.freeOffset = p.freeOffset
  bytes : ∀ x, limit ≤ x → q.bytes x = p.bytes x

theorem Frame.trans {q r : Page} {l l' : ℕ} (h : Frame p q l) (h' : Frame q r l') (hl : l ≤ n)
    (hl' : l' ≤ n) : Frame p r n :=
  ⟨h'.count.trans h.count, h'.freeOffset.trans h.freeOffset, fun x hx =>
    (h'.bytes x (by omega)).trans (h.bytes x (by omega))⟩

theorem frame_setSlot (p : Page) (i v : ℕ) :
    Frame p (p.setSlot c i v) (i * c.slotSize + c.slotSize) :=
  ⟨rfl, rfl, fun _ => setSlot_bytes p v⟩

/-- Shifting up copies every slot above `idx` from its neighbour below. -/
theorem shiftUp_spec (idx n : ℕ) (p : Page) :
    Frame p (shiftUp c idx n p) (n * c.slotSize) ∧
      ∀ j, (shiftUp c idx n p).slot c j =
        if idx < j ∧ j < n then p.slot c (j - 1) else p.slot c j := by
  induction n generalizing p with
  | zero => exact ⟨⟨rfl, rfl, fun _ _ => rfl⟩, fun j => by simp [shiftUp]⟩
  | succ n ih =>
    rw [shiftUp]
    by_cases hn : n > idx
    · obtain ⟨hframe, hslot⟩ := ih (p.setSlot c n (p.slot c (n - 1)))
      rw [if_pos hn]
      refine ⟨(frame_setSlot p n _).trans hframe ?_ ?_, fun j => ?_⟩
      · rw [Nat.succ_mul]
      · exact Nat.mul_le_mul_right _ (Nat.le_succ n)
      · rw [hslot j]
        rcases Nat.lt_trichotomy j n with hlt | rfl | hgt
        · rw [slot_setSlot_of_ne p _ (by omega), slot_setSlot_of_ne p _ (by omega)]
          simp only [hlt, show j < n + 1 by omega]
        · rw [if_neg (by omega), if_pos (by omega), slot_setSlot_self p _ (slot_lt p _)]
        · rw [if_neg (by omega), if_neg (by omega), slot_setSlot_of_ne p _ (by omega)]
    · rw [if_neg hn]
      exact ⟨⟨rfl, rfl, fun _ _ => rfl⟩, fun j => (if_neg (by omega)).symm⟩

/-- A slot is put at `idx`, and those from there on are one further up. -/
theorem openSlot_spec (p : Page) (hidx : idx ≤ p.count) (hv : v < 256 ^ c.slotSize) :
    ((p.openSlot c idx).setSlot c idx v).count = c.wrap (p.count + 1) ∧
      ((p.openSlot c idx).setSlot c idx v).freeOffset = p.freeOffset ∧
      (∀ x, (p.count + 1) * c.slotSize ≤ x →
        ((p.openSlot c idx).setSlot c idx v).bytes x = p.bytes x) ∧
      ∀ i, i ≤ p.count → ((p.openSlot c idx).setSlot c idx v).slot c i =
        if i < idx then p.slot c i else if i = idx then v else p.slot c (i - 1) := by
  have hend : idx * c.slotSize + c.slotSize ≤ (p.count + 1) * c.slotSize :=
    slot_end_le (Nat.lt_succ_of_le hidx)
  rw [openSlot]
  by_cases hpos : p.count > 0
  · obtain ⟨hframe, hslot⟩ := shiftUp_spec (c := c) idx p.count
      { p.setSlot c p.count (p.slot c (p.count - 1)) with count := c.wrap (p.count + 1) }
    rw [if_pos hpos]
    refine ⟨hframe.count, hframe.freeOffset, fun x hx => ?_, fun i hi => ?_⟩
    · rw [setSlot_bytes _ _ (by omega)]
      rw [Nat.succ_mul] at hx
      exact (hframe.bytes x (by omega)).trans (setSlot_bytes p _ hx)
    · rcases Nat.lt_trichotomy i idx with hlt | rfl | hgt
      · rw [slot_setSlot_of_ne _ _ (by omega), if_pos hlt]
        refine (hslot i).trans ?_
        rw [if_neg (by omega)]
        exact slot_setSlot_of_ne p _ (by omega)
      · rw [slot_setSlot_self _ _ hv, if_neg (by omega), if_pos rfl]
      · rw [slot_setSlot_of_ne _ _ (by omega), if_neg (by omega), if_neg (by omega)]
        refine (hslot i).trans ?_
        rcases Nat.lt_or_eq_of_le hi with hi | rfl
        · rw [if_pos ⟨hgt, hi⟩]
          exact slot_setSlot_of_ne p _ (by omega)
        · rw [if_neg (by omega)]
          exact slot_setSlot_self p _ (slot_lt p _)
  · obtain rfl : idx = 0 := by omega
    rw [if_neg hpos]
    refine ⟨rfl, rfl, fun x hx => setSlot_bytes _ _ (by omega), fun i hi => ?_⟩
    obtain rfl : i = 0 := by omega
    rw [slot_setSlot_self _ _ hv, if_neg (by omega), if_pos rfl]

/-- Shifting down copies `n` slots from their neighbours above. -/
theorem shiftDown_spec (i n : ℕ) (p : Page) :
    Frame p (shiftDown c i n p) ((i + n) * c.slotSize) ∧
      ∀ j, (shiftDown c i n p).slot c j =
        if i ≤ j ∧ j < i + n then p.slot c (j + 1) else p.slot c j := by
  induction n generalizing i p with
  | zero => exact ⟨⟨rfl, rfl, fun _ _ => rfl⟩, fun j => (if_neg (by omega)).symm⟩
  | succ n ih =>
    obtain ⟨hframe, hslot⟩ := ih (i + 1) (p.setSlot c i (p.slot c (i + 1)))
    rw [shiftDown]
    refine ⟨(frame_setSlot p i _).trans hframe ?_ ?_, fun j => ?_⟩
    · have := slot_end_le (c := c) (show i < i + (n + 1) by omega)
      omega
    · rw [show i + 1 + n = i + (n + 1) by omega]
    · rw [hslot j]
      rcases Nat.lt_trichotomy j i with hlt | rfl | hgt
      · rw [if_neg (by omega), if_neg (by omega), slot_setSlot_of_ne p _ (by omega)]
      · rw [if_neg (by omega), if_pos (by omega), slot_setSlot_self p _ (slot_lt p _)]
      · rw [slot_setSlot_of_ne p _ (by omega), slot_setSlot_of_ne p _ (by omega)]
        simp only [show i + 1 ≤ j by omega, show i ≤ j by omega, true_and,
          show i + 1 + n = i + (n + 1) by omega]

theorem copySlots_spec (src : ℕ → ℕ) (n : ℕ) (p : Page)
    (hsrc : ∀ i, i < n → src i < 256 ^ c.slotSize) :
    Frame p (copySlots c src n p) (n * c.slotSize) ∧
      ∀ j, j < n → (copySlots c src n p).slot c j = src j := by
  induction n with
  | zero => exact ⟨⟨rfl, rfl, fun _ _ => rfl⟩, fun j hj => by omega⟩
  | succ n ih =>
    obtain ⟨hframe, hslot⟩ := ih fun i hi => hsrc i (by omega)
    rw [copySlots]
    refine ⟨hframe.trans (frame_setSlot _ n _) ?_ ?_, fun j hj => ?_⟩
    · exact Nat.mul_le_mul_right _ (Nat.le_succ n)
    · rw [Nat.succ_mul]
    · rcases Nat.lt_or_eq_of_le (Nat.le_of_lt_succ hj) with hlt | rfl
      · rw [slot_setSlot_of_ne _ _ (by omega), hslot j hlt]
      · exact slot_setSlot_self _ _ (hsrc j (by omega))

/-- `binary_search` counts the entries that are not above the value. -/
theorem searchLoop_eq {less : ℕ → Bool} {cnt : ℕ} (fuel : ℕ) (min max : ℤ)
    (hless : ∀ i : ℕ, (i : ℤ) ≤ max → (less i = true ↔ cnt ≤ i)) (hmin : 0 ≤ min)
    (hlo : min ≤ cnt) (hhi : (cnt : ℤ) ≤ max + 1) (hfuel : max - min + 1 < fuel) :
    searchLoop less fuel min max = cnt - 1 := by
  induction fuel generalizing min max with
  | zero => omega
  | succ fuel ih =>
    rw [searchLoop]
    by_cases hle : min ≤ max
    · have hmid := hless ((min + max) / 2).toNat (by omega)
      simp only [if_pos hle]
      by_cases habove : less ((min + max) / 2).toNat = true
      · have := hmid.mp habove
        rw [if_pos habove]
        exact ih min _ (fun i hi => hless i (by omega)) hmin hlo (by omega) (by omega)
      · have := mt hmid.mpr habove
        rw [if_neg habove]
        exact ih _ max hless (by omega) (by omega) hhi (by omega)
    · rw [if_neg hle]
      omega

end Page
end YwStorage.OrderedNode

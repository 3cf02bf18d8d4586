import YwStorage.OrderedNode.Placed

/-!
What `append`, `insert` and `sort` do on every page that calls can make, with records of any size.
-/
namespace YwStorage.OrderedNode
open Bytes Slots

namespace Page
variable {κ α : Type*} [LinearOrder α] {c : Config} {d : Codec κ} {key : κ → α} {p q : Page} {v : κ}

/-- A store for one more record: to the `size` bytes below the free offset, to the slots in use and
the next one, or to the two counters, which take the new values. -/
def Inside (p : Page) (size : ℕ) : Write → Prop
  | .byte x _ => p.freeOffset - size ≤ x ∧ x < p.freeOffset
  | .slot i _ => i ≤ p.count
  | .count n => n = p.count + 1
  | .free o => o + size = p.freeOffset

/-- A record of this size is taken if and only if it fits, with stores `ws` to its own space and the
directory; a record that is refused leaves the page as it is. -/
structure Refuses (c : Config) (p : Page) (size : ℕ) (r : Bool × Page) (ws : List Write) :
    Prop where
  fits_iff : r.1 = true ↔ size + c.slotSize ≤ p.getFree c
  inside : r.1 = true → ∀ w ∈ ws, Inside p size w
  unchanged : r.1 = false → ws = [] ∧ r.2 = p

theorem allocWrites_refused {size : ℕ} (hfull : ¬size + c.slotSize ≤ p.getFree c) :
    p.allocWrites c size = [] := if_neg hfull

theorem appendWrites_refused (hfull : ¬c.wrap (d.size v) + c.slotSize ≤ p.getFree c) :
    p.appendWrites c d v = [] := by
  rw [appendWrites, alloc_refused hfull, allocWrites_refused hfull]
  exact if_pos rfl

theorem insertWrites_refused (hfull : ¬c.wrap (d.size v) + c.slotSize ≤ p.getFree c) :
    p.insertWrites c d key v = [] := by
  rw [insertWrites, alloc_refused hfull, allocWrites_refused hfull]
  exact if_pos rfl

section Taken
variable (h : Placed c p) (hfits : d.size v + c.slotSize ≤ p.getFree c)
include h hfits

theorem size_le_free : d.size v ≤ p.freeOffset := by
  have hget := h.getFree_eq
  omega

/-- A record that fits is not cut. -/
theorem wrap_size : c.wrap (d.size v) = d.size v := by
  have hfree := free_lt h
  have hle := size_le_free h hfits
  exact Config.wrap_of_lt (by omega)

theorem wrapped_fits : c.wrap (d.size v) + c.slotSize ≤ p.getFree c := by
  rwa [wrap_size h hfits]

theorem inside_allocWrites : ∀ w ∈ p.allocWrites c (d.size v), Inside p (d.size v) w := by
  have hle := size_le_free h hfits
  have hfree := free_lt h
  have hoff : c.wrap (p.freeOffset - d.size v : ℤ) = p.freeOffset - d.size v := by
    rw [← Nat.cast_sub hle, Config.wrap_of_lt (by omega)]
  rw [allocWrites, if_pos hfits, hoff]
  intro w hw
  obtain rfl := List.mem_singleton.mp hw
  exact Nat.sub_add_cancel hle

theorem inside_recordWrites :
    ∀ w ∈ recordWrites d (p.freeOffset - d.size v) v, Inside p (d.size v) w := by
  have hle := size_le_free h hfits
  intro w hw
  obtain ⟨j, hj, rfl⟩ := List.mem_map.mp hw
  have hj' := List.mem_range.mp hj
  exact ⟨Nat.le_add_right .., by omega⟩

end Taken

theorem slot_of_mem_shiftUpWrites {w : Write} {idx n : ℕ} (hw : w ∈ shiftUpWrites c idx n p) :
    ∃ i o, i < n ∧ w = .slot i o := by
  induction n generalizing p with
  | zero => cases hw
  | succ n ih =>
    rw [shiftUpWrites] at hw
    by_cases hn : n > idx
    · rw [if_pos hn] at hw
      rcases List.mem_cons.mp hw with rfl | hw
      · exact ⟨n, _, Nat.lt_succ_self n, rfl⟩
      · obtain ⟨i, o, hi, heq⟩ := ih hw
        exact ⟨i, o, Nat.lt_succ_of_lt hi, heq⟩
    · rw [if_neg hn] at hw
      cases hw

theorem inside_openSlotWrites {size idx : ℕ} (hcount : q.count = p.count)
    (hlt : p.count + 1 < 256 ^ c.slotSize) : ∀ w ∈ openSlotWrites c q idx, Inside p size w := by
  have hwrap : c.wrap ((q.count : ℤ) + 1) = p.count + 1 := by
    rw [hcount]
    exact Config.wrap_of_lt hlt
  intro w hw
  rw [openSlotWrites] at hw
  by_cases hpos : q.count > 0
  · rw [if_pos hpos] at hw
    rcases List.mem_cons.mp hw with rfl | hw
    · exact hcount.le
    · rcases List.mem_cons.mp hw with rfl | hw
      · exact hwrap
      · obtain ⟨i, o, hi, rfl⟩ := slot_of_mem_shiftUpWrites hw
        exact (hi.trans_eq hcount).le
  · rw [if_neg hpos] at hw
    obtain rfl := List.mem_singleton.mp hw
    exact hwrap

theorem inside_appendWrites (h : Placed c p) (hfits : d.size v + c.slotSize ≤ p.getFree c) :
    ∀ w ∈ p.appendWrites c d v, Inside p (d.size v) w := by
  obtain ⟨halloc, hnull⟩ := h.alloc_fits hfits
  have hwrap : c.wrap ((p.count : ℤ) + 1) = p.count + 1 :=
    Config.wrap_of_lt (count_lt h (wrapped_fits h hfits))
  intro w hw
  rw [appendWrites, wrap_size h hfits, halloc] at hw
  simp only [if_neg hnull, List.mem_append, List.mem_cons, List.not_mem_nil, or_false] at hw
  rcases hw with hw | hw | rfl | rfl
  · exact inside_allocWrites h hfits w hw
  · exact inside_recordWrites h hfits w hw
  · exact le_rfl
  · exact hwrap

theorem inside_insertWrites (h : Placed c p) (hfits : d.size v + c.slotSize ≤ p.getFree c) :
    ∀ w ∈ p.insertWrites c d key v, Inside p (d.size v) w := by
  obtain ⟨halloc, hnull⟩ := h.alloc_fits hfits
  have hfits' := wrapped_fits h hfits
  have hplace : place c d key p v ≤ p.count := place_le h hfits'
  rw [place, taken, wrap_size h hfits] at hplace
  intro w hw
  rw [insertWrites, wrap_size h hfits, halloc] at hw
  simp only [if_neg hnull, List.mem_append, List.mem_cons, List.not_mem_nil, or_false] at hw
  rcases hw with hw | hw | hw | rfl
  · exact inside_allocWrites h hfits w hw
  · exact inside_recordWrites h hfits w hw
  · exact inside_openSlotWrites (by rfl) (count_lt h hfits') w hw
  · exact hplace

/-- When the cut size is still too long, so is the size. -/
theorem Refuses.of_full {r : Bool × Page} {ws : List Write}
    (hfull : ¬c.wrap (d.size v) + c.slotSize ≤ p.getFree c) (hr : r = (false, p)) (hws : ws = []) :
    Refuses c p (d.size v) r ws := by
  subst hr hws
  have hle : c.wrap (d.size v) ≤ d.size v := by
    rw [Config.wrap_natCast]
    exact Nat.mod_le ..
  exact ⟨⟨fun h => (Bool.false_ne_true h).elim, fun h => by omega⟩,
    fun h => (Bool.false_ne_true h).elim, fun _ => ⟨rfl, rfl⟩⟩

/-- The two calls share the test for space; `hfull` and `hfits` say what follows it. -/
theorem refuses_iff {r : Bool × Page} {ws : List Write} (h : Placed c p)
    (hfull : ¬c.wrap (d.size v) + c.slotSize ≤ p.getFree c → r = (false, p) ∧ ws = [])
    (hok : c.wrap (d.size v) + c.slotSize ≤ p.getFree c → r.1 = true)
    (hinside : d.size v + c.slotSize ≤ p.getFree c → ∀ w ∈ ws, Inside p (d.size v) w) :
    Refuses c p (d.size v) r ws ↔ d.size v < 256 ^ c.slotSize ∨
      p.getFree c < d.size v % 256 ^ c.slotSize + c.slotSize := by
  have hwrap := Config.wrap_natCast c (d.size v)
  have hget := h.getFree_eq
  have hfree := free_lt h
  by_cases hfits : c.wrap (d.size v) + c.slotSize ≤ p.getFree c
  · have hr := hok hfits
    constructor
    · intro hrefuses
      have := hrefuses.fits_iff.mp hr
      exact Or.inl (by omega)
    · intro hcond
      have hsize : d.size v < 256 ^ c.slotSize := by
        rcases hcond with hlt | hlt
        · exact hlt
        · omega
      rw [hwrap, Nat.mod_eq_of_lt hsize] at hfits
      refine ⟨⟨fun _ => hfits, fun _ => hr⟩, fun _ => hinside hfits, fun hfalse => ?_⟩
      rw [hr] at hfalse
      cases hfalse
  · obtain ⟨hr, hws⟩ := hfull hfits
    exact ⟨fun _ => Or.inr (by omega), fun _ => .of_full hfits hr hws⟩

/-- A record whose size does not fit into a `SLOT` is refused only if what is left of its size after
the cut is refused. -/
theorem oversized_refused_iff {p₀ : Page} {xs : List (Op κ × Reply κ)}
    (hrun : Lts.Run (Called c d key) (p₀.clear c) xs p) (v : κ) :
    (Refuses c p (d.size v) (p.append c d v) (p.appendWrites c d v) ↔
      d.size v < 256 ^ c.slotSize ∨ p.getFree c < d.size v % 256 ^ c.slotSize + c.slotSize) ∧
    (Refuses c p (d.size v) (p.insert c d key v) (p.insertWrites c d key v) ↔
      d.size v < 256 ^ c.slotSize ∨ p.getFree c < d.size v % 256 ^ c.slotSize + c.slotSize) := by
  have h := placed_of_run hrun
  constructor
  · refine refuses_iff h (fun hfull => ⟨append_refused hfull, appendWrites_refused hfull⟩)
      (fun hfits => ?_) (inside_appendWrites h)
    rw [append_taken h hfits]
  · refine refuses_iff h (fun hfull => ⟨insert_refused hfull, insertWrites_refused hfull⟩)
      (fun hfits => ?_) (inside_insertWrites h)
    rw [insert_taken h hfits]

/-- Records of 256 bytes, of which the first is the value. -/
def wideCodec : Codec UInt8 :=
  ⟨fun _ => 256, fun v _ => v, .next .done, fun _ _ h => h 0 (by decide)⟩

theorem byteRecord_accepted :
    Refuses byteConfig (blank.clear byteConfig) 1
      ((blank.clear byteConfig).append byteConfig byteCodec 7)
      ((blank.clear byteConfig).appendWrites byteConfig byteCodec 7) := by
  have hrun : Lts.Run (Called byteConfig byteCodec UInt8.toNat) (blank.clear byteConfig) []
      (blank.clear byteConfig) := .refl _
  exact (oversized_refused_iff hrun 7).1.mpr (.inl (by decide))

/-- A record of 256 bytes is accepted for an empty page of 234 bytes. -/
theorem wideRecord_accepted :
    ((blank.clear byteConfig).append byteConfig wideCodec 7).1 = true ∧
      ¬Refuses byteConfig (blank.clear byteConfig) 256
        ((blank.clear byteConfig).append byteConfig wideCodec 7)
        ((blank.clear byteConfig).appendWrites byteConfig wideCodec 7) := by
  have htrue : ((blank.clear byteConfig).append byteConfig wideCodec 7).1 = true := by decide
  refine ⟨htrue, fun h => ?_⟩
  have := h.fits_iff.mp htrue
  revert this
  decide

section Appended
variable (c d) (p₀ : Page)

/-- The page that `append` makes of a list of records; those that do not fit are refused. -/
def appendAll (vs : List κ) : Page := vs.foldl (fun p v => (p.append c d v).2) (p₀.clear c)

theorem placed_appendAll (vs : List κ) : Placed c (appendAll c d p₀ vs) := by
  rw [appendAll]
  generalize hp : p₀.clear c = p
  have h : Placed c p := hp ▸ placed_clear c p₀
  clear hp
  induction vs generalizing p with
  | nil => exact h
  | cons v vs ih => exact ih _ (placed_append h v)

end Appended

/-- The records are read from bytes that a sort does not write. -/
theorem load_of_arranged (h : Placed c p) (harr : Arranged c d key p q) {i : ℕ}
    (hi : i < (q.slots c).length) : d.load p.bytes (q.slots c)[i] = q.get c d i := by
  have hq := placed_of_arranged h harr
  have habove := hq.above i (by rwa [length_slots] at hi)
  have hroom := hq.room
  rw [harr.frame.count] at hroom
  have hbytes : (fun j => p.bytes (q.slot c i + j)) = fun j => q.bytes (q.slot c i + j) :=
    funext fun j => (harr.frame.bytes _ (by omega)).symm
  rw [getElem_slots, get, Codec.load, Codec.load, hbytes]

/-- A page that `append` has made is sorted, inside the first `count` places of the two buffers, if
and only if a quarter of the `SLOT` values can count its records. -/
theorem sort_correct_iff (key : κ → α) (p₀ : Page) (vs : List κ) (buf : ℕ → ℕ) :
    (∃ fuel q, (appendAll c d p₀ vs).checkedSort c d key fuel buf = some q ∧
      (appendAll c d p₀ vs).sort c d key fuel buf = some q ∧
      Frame (appendAll c d p₀ vs) q ((appendAll c d p₀ vs).count * c.slotSize) ∧
      (q.slots c).Perm ((appendAll c d p₀ vs).slots c) ∧
      ∀ i, i + 1 < q.count → key (q.get c d i) ≤ key (q.get c d (i + 1))) ↔
    4 * (appendAll c d p₀ vs).count ≤ 256 ^ c.slotSize := by
  have h := placed_appendAll c d p₀ vs
  constructor
  · rintro ⟨fuel, q, hsort, -⟩
    by_contra hfull
    rw [checkedSort_diverges (not_le.mp hfull)] at hsort
    cases hsort
  · intro hcount
    obtain ⟨q, hsort, harr⟩ := checkedSort_spec d key hcount (Nat.lt_succ_self _) buf
    refine ⟨_, q, hsort, sort_of_checked hcount hsort, harr.frame, harr.perm, fun i hi => ?_⟩
    have hi' : i + 1 < (q.slots c).length := by rwa [length_slots]
    have hle := List.pairwise_iff_getElem.mp harr.sorted i (i + 1) (by omega) hi' (by omega)
    rwa [load_of_arranged h harr, load_of_arranged h harr] at hle

/-- A page of 256 bytes with 65 records of one byte is never sorted. -/
theorem crowdedPage_unsorted :
    (appendAll byteConfig byteCodec blank (List.replicate 65 7)).count = 65 ∧
      ∀ fuel buf, (appendAll byteConfig byteCodec blank (List.replicate 65 7)).checkedSort
        byteConfig byteCodec UInt8.toNat fuel buf = none := by
  have hcount : (appendAll byteConfig byteCodec blank (List.replicate 65 7)).count = 65 := by
    decide +kernel
  refine ⟨hcount, checkedSort_diverges ?_⟩
  rw [hcount]
  decide

end Page
end YwStorage.OrderedNode

import YwStorage.OrderedNode.Writes

/-! Between any two stores of `insert` and `_remove`, a search still finds the keys of the page. -/
namespace YwStorage.OrderedNode
open Bytes Slots

namespace Page
variable {κ α : Type*} [LinearOrder α] {c : Config} {d : Codec κ} {key : κ → α} {p q : Page}
  {ws : List Write} {rs : List (ℕ × κ)} {v x : κ} {n i j idx : ℕ} {f : ℕ → ℕ}

/-- The search for `v` ends at an entry with its key. -/
def Found (c : Config) (d : Codec κ) (key : κ → α) (q : Page) (v : κ) : Prop :=
  ∃ i : ℕ, q.binarySearch c d key v = i ∧ i < q.count ∧ key (q.get c d i) = key v

/-- A search in sorted entries finds a key that is there. -/
theorem found_of_sorted
    (hs : ∀ i j, i ≤ j → j < q.count → key (q.get c d i) ≤ key (q.get c d j))
    (hi : i < q.count) (hkey : key (q.get c d i) = key v) : Found c d key q v := by
  -- `cnt` is the number of entries that are not above `v`
  obtain ⟨cnt, hle, hcnt⟩ : ∃ cnt, cnt ≤ q.count ∧
      ∀ i, i < q.count → (key v < key (q.get c d i) ↔ cnt ≤ i) := by
    have hex : ∃ i, q.count ≤ i ∨ key v < key (q.get c d i) := ⟨q.count, Or.inl le_rfl⟩
    have hle : Nat.find hex ≤ q.count := Nat.find_min' hex (Or.inl le_rfl)
    refine ⟨Nat.find hex, hle, fun i hi => ⟨fun hlt => ?_, fun hge => ?_⟩⟩
    · exact Nat.find_min' hex (Or.inr hlt)
    · rcases Nat.find_spec hex with hcount | hlt
      · omega
      · exact hlt.trans_le (hs _ i hge hi)
  have hlt : i < cnt := by
    by_contra hge
    have := (hcnt i hi).mpr (Nat.le_of_not_lt hge)
    rw [hkey] at this
    exact lt_irrefl _ this
  have hsearch : q.binarySearch c d key v = (cnt : ℤ) - 1 := by
    refine searchLoop_eq _ 0 _ (fun i hi => ?_) le_rfl (by omega) (by omega) (by omega)
    rw [decide_eq_true_iff]
    exact hcnt i (by omega)
  refine ⟨cnt - 1, ?_, by omega, le_antisymm ?_ ?_⟩
  · rw [hsearch]
    omega
  · refine not_lt.mp fun hgt => ?_
    have := (hcnt (cnt - 1) (by omega)).mp hgt
    omega
  · rw [← hkey]
    exact hs i (cnt - 1) (by omega) (by omega)

theorem sorted_get (hs : (p.contents c d).Pairwise fun x y => key x ≤ key y) (hij : i ≤ j)
    (hj : j < p.count) : key (p.get c d i) ≤ key (p.get c d j) := by
  rcases Nat.lt_or_eq_of_le hij with hlt | rfl
  · have := List.pairwise_iff_getElem.mp hs i j (by simp [contents]; omega)
      (by simpa [contents]) hlt
    simpa [contents] using this
  · exact le_rfl

/-- The entries of `q` are entries of `p` in their order, some of them perhaps twice. -/
structure Shows (c : Config) (p q : Page) (f : ℕ → ℕ) : Prop where
  slots : ∀ i, i < q.count → f i < p.count ∧ q.slot c i = p.slot c (f i)
  mono : ∀ i j, i ≤ j → j < q.count → f i ≤ f j
  bytes : ∀ x, p.freeOffset ≤ x → q.bytes x = p.bytes x

theorem Shows.get_eq (h : Shows c p q f) (hrep : Rep c d p rs) (hi : i < q.count) :
    q.get c d i = p.get c d (f i) := by
  obtain ⟨hfi, hslot⟩ := h.slots i hi
  rw [hrep.count] at hfi
  have hmem := List.getElem_mem hfi
  have hoff : p.slot c (f i) = rs[f i].1 := by
    have := hrep.slots.get (i := f i) (by simpa using hfi)
    simpa using this
  rw [hrep.get_eq_getElem hfi, get, hslot, hoff]
  refine ((hrep.vals _ hmem).congr fun j _ => h.bytes _ ?_).load
  have := (hrep.inside _ hmem).1
  omega

theorem Shows.found (h : Shows c p q f) (hrep : Rep c d p rs)
    (hs : (p.contents c d).Pairwise fun x y => key x ≤ key y) (hi : i < q.count)
    (hkey : key (p.get c d (f i)) = key v) : Found c d key q v := by
  refine found_of_sorted (fun i j hij hj => ?_) hi (h.get_eq hrep hi ▸ hkey)
  rw [h.get_eq hrep hj, h.get_eq hrep (by omega)]
  exact sorted_get hs (h.mono i j hij hj) (h.slots j hj).1

/-- Stores below the records leave the shown entries alone. -/
theorem shows_self (hcount : q.count = p.count)
    (hslots : ∀ i, i < p.count → q.slot c i = p.slot c i)
    (hbytes : ∀ x, p.freeOffset ≤ x → q.bytes x = p.bytes x) : Shows c p q id :=
  ⟨fun i hi => ⟨hcount ▸ hi, hslots i (hcount ▸ hi)⟩, fun _ _ hij _ => hij, hbytes⟩

/-- The entry `j` is there twice. -/
structure Dup (c : Config) (p q : Page) (j : ℕ) : Prop where
  count : q.count = p.count + 1
  lt : j < p.count
  slots : ∀ i, i ≤ p.count → q.slot c i = if i ≤ j then p.slot c i else p.slot c (i - 1)
  bytes : ∀ x, p.freeOffset ≤ x → q.bytes x = p.bytes x

theorem Dup.shows (h : Dup c p q j) : Shows c p q fun i => if i ≤ j then i else i - 1 := by
  have hcount := h.count
  have hj := h.lt
  refine ⟨fun i hi => ?_, fun i i' hij hi' => ?_, h.bytes⟩
  · rw [h.slots i (by omega)]
    by_cases hle : i ≤ j
    · simp only [if_pos hle, and_true]
      omega
    · simp only [if_neg hle, and_true]
      omega
  · split <;> split <;> omega

/-- Moving up one more entry. -/
theorem Dup.shift (h : Dup c p q (j + 1)) (hroom : (p.count + 1) * c.slotSize ≤ p.freeOffset) :
    Dup c p (q.setSlot c (j + 1) (q.slot c j)) j := by
  have hj := h.lt
  refine ⟨h.count, by omega, fun i hi => ?_, fun x hx => ?_⟩
  · by_cases heq : i = j + 1
    · subst heq
      rw [slot_setSlot_self q _ (slot_lt q _), h.slots j (by omega), if_pos (by omega),
        if_neg (by omega), Nat.add_sub_cancel]
    · rw [slot_setSlot_of_ne q _ heq, h.slots i hi]
      by_cases hle : i ≤ j
      · rw [if_pos (by omega), if_pos hle]
      · rw [if_neg (by omega), if_neg hle]
  · have hend := slot_end_le (c := c) (show j + 1 < p.count + 1 by omega)
    rw [setSlot_bytes q _ (by omega), h.bytes x hx]

theorem dup_of_mem_shiftUp (h : Dup c p q j) (hroom : (p.count + 1) * c.slotSize ≤ p.freeOffset)
    (hn : j + 1 = n) {r : Page} (hr : r ∈ states c q (shiftUpWrites c idx n q)) :
    ∃ j', Dup c p r j' := by
  subst hn
  induction j generalizing q with
  | zero => simp [shiftUpWrites, states] at hr
  | succ j ih =>
    rw [shiftUpWrites] at hr
    by_cases hj : j + 1 > idx
    · rw [if_pos hj, states, List.mem_cons] at hr
      have hdup := h.shift hroom
      rcases hr with rfl | hr
      · exact ⟨j, hdup⟩
      · exact ih hdup hr
    · rw [if_neg hj] at hr
      cases hr

/-- While a record is written, only its own bytes change. -/
theorem frame_of_mem_bytes {lo hi : ℕ}
    (hws : ∀ w ∈ ws, ∃ x b, w = .byte x b ∧ lo ≤ x ∧ x < hi) (hq : q ∈ states c p ws) :
    q.count = p.count ∧ ∀ x, x < lo ∨ hi ≤ x → q.bytes x = p.bytes x := by
  induction ws generalizing p with
  | nil => simp [states] at hq
  | cons w ws ih =>
    obtain ⟨x, b, rfl, hlo, hhi⟩ := hws w (by simp)
    have hkeep : ∀ y, y < lo ∨ hi ≤ y → (p.apply c (.byte x b)).bytes y = p.bytes y := fun y hy =>
      Function.update_of_ne (by omega) _ _
    rw [states, List.mem_cons] at hq
    rcases hq with rfl | hq
    · exact ⟨rfl, hkeep⟩
    · obtain ⟨hcount, hbytes⟩ := ih (fun w hw => hws w (by simp [hw])) hq
      exact ⟨hcount, fun y hy => (hbytes y hy).trans (hkeep y hy)⟩

/-- The opening of a slot, up to and with the last shift. -/
theorem shows_of_mem_openSlot {p₂ : Page} (hp₂ : Shows c p p₂ id) (hcount : p₂.count = p.count)
    (hpos : 0 < p.count) (hwrap : c.wrap (p.count + 1) = p.count + 1)
    (hroom : (p.count + 1) * c.slotSize ≤ p.freeOffset)
    (hq : q ∈ states c p₂ (openSlotWrites c p₂ idx)) :
    Shows c p q id ∧ q.count = p.count ∨ ∃ j, Dup c p q j := by
  have hslot : ∀ i, i < p.count → p₂.slot c i = p.slot c i := fun i hi =>
    (hp₂.slots i (hcount ▸ hi)).2
  have hbytes : ∀ v x, p.freeOffset ≤ x → (p₂.setSlot c p.count v).bytes x = p.bytes x :=
    fun v x hx => by
      rw [Nat.succ_mul] at hroom
      rw [setSlot_bytes p₂ v (by omega), hp₂.bytes x hx]
  rw [openSlotWrites, hcount, if_pos hpos, states, states, List.mem_cons, List.mem_cons] at hq
  have hdup : Dup c p { p₂.setSlot c p.count (p₂.slot c (p.count - 1)) with
      count := p.count + 1 } (p.count - 1) := by
    refine ⟨rfl, by omega, fun i hi => ?_, hbytes _⟩
    by_cases heq : i = p.count
    · subst heq
      rw [if_neg (by omega), ← hslot _ (by omega)]
      exact slot_setSlot_self p₂ _ (slot_lt p₂ _)
    · rw [if_pos (by omega), ← hslot i (by omega)]
      exact slot_setSlot_of_ne p₂ _ heq
  have hsame : (p₂.setSlot c p.count (p₂.slot c (p.count - 1))).count = p.count := hcount
  rcases hq with rfl | rfl | hq
  · refine Or.inl ⟨shows_self hcount (fun i hi => ?_) (hbytes _), hcount⟩
    rw [← hslot i hi]
    exact slot_setSlot_of_ne p₂ _ (by omega)
  · refine Or.inr ⟨p.count - 1, ?_⟩
    simpa only [apply, hsame, hwrap] using hdup
  · simp only [apply, hsame, hwrap] at hq
    exact Or.inr (dup_of_mem_shiftUp hdup hroom (by omega) hq)

theorem found_of_abstracts {a : AbsPage κ} {y : κ} (h : Abstracts c d q a rs) (hs : a.Sorted key)
    (hy : y ∈ a.entries) (hkey : key y = key x) : Found c d key q x := by
  rw [AbsPage.Sorted, ← h.contents_eq] at hs
  rw [← h.entries] at hy
  obtain ⟨i, hi, rfl⟩ := List.getElem_of_mem hy
  have hlt : i < rs.length := by simpa using hi
  have hcount : i < q.count := h.rep.count ▸ hlt
  refine found_of_sorted (fun i j => sorted_get hs) hcount ?_
  rw [← hkey, h.rep.get_eq_getElem hlt, List.getElem_map]

/-- In each page that `insert` goes through, every old key is found. -/
theorem found_during_insert (hrep : Rep c d p rs)
    (hs : (p.contents c d).Pairwise fun x y => key x ≤ key y)
    (hfits : d.size v + c.slotSize ≤ p.getFree c) (hj : j < p.count)
    (hkey : key (p.get c d j) = key x) (hq : q ∈ states c p (p.insertWrites c d key v)) :
    Found c d key q x := by
  have hroom := hrep.room
  have hcount := hrep.count
  have hbody := c.bodySize_lt
  have hfree := hrep.free_le
  rw [getFree_eq hrep] at hfits
  have hsize : d.size v < 256 ^ c.slotSize := by omega
  have hfits' : rs.length * c.slotSize + (d.size v + c.slotSize) ≤ p.freeOffset := by
    have := c.slotSize_pos
    omega
  obtain ⟨halloc, hnull⟩ := alloc_fits hrep hsize hfits'
  have hw := hrep.write_new v hfits'
  have hwrap := hw.wrap_count
  have hspace := hw.room
  rw [← hcount] at hspace hwrap
  -- up to the new slot the pages show the old entries
  have hkeep : ∀ r : Page, r.count = p.count →
      (∀ y, y < p.freeOffset - d.size v ∨ p.freeOffset ≤ y → r.bytes y = p.bytes y) →
      Shows c p r id := by
    intro r hr hbytes
    refine shows_self hr (fun i hi => slot_congr fun y hy => hbytes y (Or.inl ?_)) fun y hy =>
      hbytes y (Or.inr hy)
    have hend := slot_end_le (c := c) (show i < p.count + 1 by omega)
    omega
  have habs : Abstracts c d p ⟨rs.map Prod.snd, c.bodySize - p.freeOffset⟩ rs :=
    ⟨hrep, rfl, show p.freeOffset + (c.bodySize - p.freeOffset) = c.bodySize by omega⟩
  have hsorted : (⟨rs.map Prod.snd, c.bodySize - p.freeOffset⟩ : AbsPage κ).Sorted key :=
    habs.sorted_of_allowed hs
  obtain ⟨rs', -, hlast⟩ := insert_spec habs hsize hsorted
  rw [AbsPage.insert, if_pos (habs.fits_iff.mpr hfits'), insert, halloc] at hlast
  rw [insertWrites, halloc] at hq
  simp only [if_neg hnull] at hq hlast
  generalize hp₂ : Page.write d { p with freeOffset := p.freeOffset - d.size v }
    (p.freeOffset - d.size v) v = p₂ at hq hw hlast
  generalize c.wrap (binarySearch c d key p₂ v + 1) = idx at hq hlast
  simp only [states_append, List.mem_append, applyAll_allocWrites, halloc, applyAll_recordWrites,
    hp₂, applyAll_openSlotWrites] at hq
  rcases hq with hq | hq | hq | hq
  · have hp₁ : q = { p with freeOffset := p.freeOffset - d.size v } := by
      have hfree := applyAll_allocWrites (c := c) p (c.wrap (d.size v))
      rw [halloc] at hfree
      rw [allocWrites] at hq hfree
      split at hq
      · rw [if_pos ‹_›] at hfree
        rw [states, states, List.mem_singleton] at hq
        exact hq.trans hfree
      · simp [states] at hq
    subst hp₁
    exact (hkeep _ rfl fun _ _ => rfl).found hrep hs hj hkey
  · have hbyte : ∀ w ∈ recordWrites d (p.freeOffset - d.size v) v,
        ∃ y b, w = .byte y b ∧ p.freeOffset - d.size v ≤ y ∧ y < p.freeOffset := by
      intro w hw
      obtain ⟨k, hk, rfl⟩ := List.mem_map.mp hw
      rw [List.mem_range] at hk
      exact ⟨_, _, rfl, by omega, by omega⟩
    obtain ⟨hc, hbytes⟩ := frame_of_mem_bytes hbyte hq
    exact (hkeep q hc hbytes).found hrep hs (hc ▸ hj) hkey
  · have hc₂ : p₂.count = p.count := by rw [← hp₂, write_count]
    have hp₂s : Shows c p p₂ id := by
      refine hkeep p₂ hc₂ fun y hy => ?_
      rw [← hp₂]
      rcases hy with hlt | hge
      · exact Codec.store_of_lt hlt
      · exact Codec.store_of_le (by omega)
    rcases shows_of_mem_openSlot hp₂s hc₂ (by omega) hwrap (by omega) hq with
      ⟨hshow, hc⟩ | ⟨k, hdup⟩
    · exact hshow.found hrep hs (hc ▸ hj) hkey
    · -- the entry `j` is at its place or one further up
      have hqc := hdup.count
      have hk := hdup.lt
      by_cases hle : j ≤ k
      · refine hdup.shows.found (i := j) hrep hs (by omega) ?_
        rwa [if_pos hle]
      · refine hdup.shows.found (i := j + 1) hrep hs (by omega) ?_
        rwa [if_neg (by omega), Nat.add_sub_cancel]
  · rw [states, states, List.mem_singleton] at hq
    subst hq
    refine found_of_abstracts hlast (hsorted.insert v) (y := p.get c d j) ?_ hkey
    have hmem : p.get c d j ∈ rs.map Prod.snd := by
      rw [← hrep.contents_eq]
      exact List.mem_map_of_mem (List.mem_range.mpr hj)
    rw [← below_append_above key v (rs.map Prod.snd)] at hmem
    simp only [List.mem_append, List.mem_cons] at hmem ⊢
    tauto

/-- The entries from `idx` up to `m` have moved down. -/
structure Gap (c : Config) (p : Page) (idx : ℕ) (q : Page) (m : ℕ) : Prop where
  count : q.count = p.count
  le : idx ≤ m
  slots : ∀ i, i < p.count →
    q.slot c i = if idx ≤ i ∧ i < m then p.slot c (i + 1) else p.slot c i
  bytes : ∀ x, p.freeOffset ≤ x → q.bytes x = p.bytes x

theorem Gap.shift (h : Gap c p idx q n) (hn : n + 1 < p.count)
    (hroom : p.count * c.slotSize ≤ p.freeOffset) :
    Gap c p idx (q.setSlot c n (q.slot c (n + 1))) (n + 1) := by
  have hle := h.le
  refine ⟨h.count, by omega, fun i hi => ?_, fun x hx => ?_⟩
  · by_cases heq : i = n
    · subst heq
      rw [slot_setSlot_self q _ (slot_lt q _), h.slots _ hn, if_neg (by omega), if_pos (by omega)]
    · rw [slot_setSlot_of_ne q _ heq, h.slots i hi]
      by_cases hlt : idx ≤ i ∧ i < n
      · rw [if_pos hlt, if_pos (by omega)]
      · rw [if_neg hlt, if_neg (by omega)]
  · have hend := slot_end_le (c := c) (show n < p.count by omega)
    rw [setSlot_bytes q _ (by omega), h.bytes x hx]

/-- Every page of the loop has a gap, and so has the last one. -/
theorem gap_of_shiftDown (turns : ℕ) (h : Gap c p idx q n) (hn : n + turns < p.count)
    (hroom : p.count * c.slotSize ≤ p.freeOffset) :
    (∀ r ∈ states c q (shiftDownWrites c n turns q), ∃ m, m < p.count ∧ Gap c p idx r m) ∧
      Gap c p idx (shiftDown c n turns q) (n + turns) := by
  induction turns generalizing n q with
  | zero => exact ⟨by simp [shiftDownWrites, states], h⟩
  | succ turns ih =>
    have hshift := h.shift (by omega) hroom
    obtain ⟨hstates, hend⟩ := ih hshift (by omega)
    rw [shiftDownWrites, states, shiftDown]
    refine ⟨fun r hr => ?_, ?_⟩
    · rcases List.mem_cons.mp hr with rfl | hr
      · exact ⟨n + 1, by omega, hshift⟩
      · exact hstates r hr
    · rwa [show n + (turns + 1) = n + 1 + turns by omega]

/-- All entries but the one at `idx` are shown. -/
theorem Gap.found (h : Gap c p idx q n) (hn : n < p.count) (hrep : Rep c d p rs)
    (hs : (p.contents c d).Pairwise fun x y => key x ≤ key y) (hj : j < p.count) (hne : j ≠ idx)
    (hkey : key (p.get c d j) = key x) {r : Page} (hbytes : r.bytes = q.bytes)
    (hcount : r.count = p.count ∨ r.count + 1 = p.count ∧ n + 1 = p.count) : Found c d key r x := by
  have hle := h.le
  have hslots : ∀ i, r.slot c i = q.slot c i := fun i => by rw [slot, slot, hbytes]
  have hshow : Shows c p r fun i => if idx ≤ i ∧ i < n then i + 1 else i := by
    refine ⟨fun i hi => ?_, fun i i' hi hi' => ?_, fun y hy => by rw [hbytes, h.bytes y hy]⟩
    · rw [hslots, h.slots i (by omega)]
      by_cases hlt : idx ≤ i ∧ i < n
      · simp only [if_pos hlt, and_true]
        omega
      · simp only [if_neg hlt, and_true]
        omega
    · split <;> split <;> omega
  by_cases hmoved : idx < j ∧ j ≤ n
  · refine hshow.found (i := j - 1) hrep hs (by omega) ?_
    rwa [if_pos (by omega), Nat.sub_add_cancel (by omega)]
  · refine hshow.found (i := j) hrep hs (by omega) ?_
    rwa [if_neg (by omega)]

/-- In each page that `_remove` goes through, every key of another entry is found. -/
theorem found_during_remove (hrep : Rep c d p rs)
    (hs : (p.contents c d).Pairwise fun x y => key x ≤ key y) (hj : j < p.count) (hne : j ≠ idx)
    (hkey : key (p.get c d j) = key x) (hq : q ∈ states c p (p.removeAtWrites c idx)) :
    Found c d key q x := by
  have hroom : p.count * c.slotSize ≤ p.freeOffset := hrep.count ▸ hrep.room
  rw [removeAtWrites] at hq
  by_cases hidx : p.count ≤ idx
  · simp [if_pos hidx, states] at hq
  · have hstart : Gap c p idx p idx :=
      ⟨rfl, le_rfl, fun i _ => by rw [if_neg (by omega)], fun _ _ => rfl⟩
    obtain ⟨hstates, hend⟩ := gap_of_shiftDown (p.count - 1 - idx) hstart (by omega) hroom
    simp only [if_neg hidx, states_append, List.mem_append, applyAll_shiftDownWrites] at hq
    rcases hq with hq | hq
    · obtain ⟨m, hm, hgap⟩ := hstates q hq
      exact hgap.found hm hrep hs hj hne hkey rfl (Or.inl hgap.count)
    · have hbody := c.bodySize_lt
      have hle := hrep.count_le
      have hfree := hrep.free_le
      have hwrap :
          c.wrap ((shiftDown c idx (p.count - 1 - idx) p).count - 1 : ℤ) = p.count - 1 := by
        rw [hend.count, show (p.count - 1 : ℤ) = (p.count - 1 : ℕ) by omega,
          Config.wrap_of_lt (by rw [hrep.count]; omega)]
      rw [hwrap, states, states, List.mem_singleton] at hq
      subst hq
      exact hend.found (by omega) hrep hs hj hne hkey rfl
        (Or.inr ⟨by simp [apply]; omega, by omega⟩)

/-- A search finds every key of a sorted page in each page that `insert` or `_remove` goes through,
up to the key of the entry that is removed. -/
theorem searchable_during_shift (hp : ∃ rs, Rep c d p rs)
    (hs : (p.contents c d).Pairwise fun x y => key x ≤ key y) :
    (∀ v, d.size v + c.slotSize ≤ p.getFree c →
      applyAll c p (p.insertWrites c d key v) = (p.insert c d key v).2 ∧
      ∀ q ∈ states c p (p.insertWrites c d key v), ∀ j x, j < p.count →
        key (p.get c d j) = key x → Found c d key q x) ∧
    ∀ idx, applyAll c p (p.removeAtWrites c idx) = (p.removeAt c idx).2 ∧
      ∀ q ∈ states c p (p.removeAtWrites c idx), ∀ j x, j < p.count → j ≠ idx →
        key (p.get c d j) = key x → Found c d key q x := by
  obtain ⟨rs, hrep⟩ := hp
  refine ⟨fun v hfits => ⟨applyAll_insertWrites p v, fun q hq j x hj hkey => ?_⟩,
    fun idx => ⟨applyAll_removeAtWrites p idx, fun q hq j x hj hne hkey => ?_⟩⟩
  · exact found_during_insert hrep hs hfits hj hkey hq
  · exact found_during_remove hrep hs hj hne hkey hq

theorem pairPage_searchable : ∃ rs, Rep byteConfig byteCodec pairPage rs ∧
    (pairPage.insertWrites byteConfig byteCodec UInt8.toNat 4).length = 5 ∧
    ∀ q ∈ states byteConfig pairPage (pairPage.insertWrites byteConfig byteCodec UInt8.toNat 4),
      Found byteConfig byteCodec UInt8.toNat q 5 := by
  have hsize : ∀ v, byteCodec.size v < 256 ^ byteConfig.slotSize := fun _ => show 1 < 256 by decide
  obtain ⟨rs₁, -, h₁⟩ := append_spec (abstracts_clear byteConfig byteCodec blank) (hsize 3)
  obtain ⟨rs₂, -, h₂⟩ := append_spec h₁ (hsize 5)
  refine ⟨rs₂, h₂.rep, by decide +kernel, fun q hq => ?_⟩
  exact ((searchable_during_shift ⟨rs₂, h₂.rep⟩ (by decide +kernel)).1 4 (by decide +kernel)).2 q hq
    1 5 (by decide +kernel) (by decide +kernel)

end Page
end YwStorage.OrderedNode

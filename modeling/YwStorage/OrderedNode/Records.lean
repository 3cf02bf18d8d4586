import YwStorage.OrderedNode.Directory
import YwStorage.OrderedNode.Spec

/-! The records that a page holds, each with the offset at which it is written. -/
namespace YwStorage.OrderedNode
open Bytes Slots

namespace Config
variable (c : Config)

/-- The page header keeps the offsets clear of `NULL_SLOT`. -/
theorem bodySize_lt : c.bodySize + 2 ≤ 256 ^ c.slotSize := by
  have hpage := c.page_le
  have hmeta := c.meta_le
  have hpos : 0 < 256 ^ c.slotSize := Nat.pow_pos (by decide)
  rw [bodySize, metaSize]
  omega

theorem nullSlot_eq : c.nullSlot + 1 = 256 ^ c.slotSize := by
  have hpos : 0 < 256 ^ c.slotSize := Nat.pow_pos (by decide)
  rw [nullSlot, wrap]
  generalize 256 ^ c.slotSize = M at hpos
  have hmod : (-1 : ℤ) % (M : ℕ) = M - 1 := by
    rw [Int.emod_eq_add_self_emod, Int.emod_eq_of_lt (by omega) (by omega)]
    omega
  rw [hmod]
  omega

end Config

namespace Page
variable {κ α : Type*} [LinearOrder α] {c : Config} {d : Codec κ} {key : κ → α} {p q : Page}
  {rs rs' us vs : List (ℕ × κ)} {e : ℕ × κ} {v : κ} {o n : ℕ}

/-- Two records do not overlap. -/
def Apart (d : Codec κ) (e f : ℕ × κ) : Prop :=
  e.1 + d.size e.2 ≤ f.1 ∨ f.1 + d.size f.2 ≤ e.1

/-- The page holds the records `rs`, in this order of the directory. -/
structure Rep (c : Config) (d : Codec κ) (p : Page) (rs : List (ℕ × κ)) : Prop where
  count : p.count = rs.length
  slots : Reads (p.slot c) 0 (rs.map Prod.fst)
  vals : ∀ e ∈ rs, d.At p.bytes e.1 e.2
  inside : ∀ e ∈ rs, p.freeOffset ≤ e.1 ∧ e.1 + d.size e.2 ≤ c.bodySize
  apart : rs.Pairwise (Apart d)
  room : rs.length * c.slotSize ≤ p.freeOffset
  free_le : p.freeOffset ≤ c.bodySize

theorem clear_freeOffset (c : Config) (p : Page) : (p.clear c).freeOffset = c.bodySize := by
  have hbody := c.bodySize_lt
  have hmeta : c.metaSize ≤ c.pageSize := c.meta_le
  rw [Config.bodySize] at hbody ⊢
  rw [clear, ← Config.wrap_of_lt (c := c) (x := c.pageSize - c.metaSize) (by omega),
    Nat.cast_sub hmeta]

theorem rep_clear (c : Config) (d : Codec κ) (p : Page) : Rep c d (p.clear c) [] := by
  refine ⟨rfl, trivial, by simp, by simp, .nil, by simp, ?_⟩
  rw [clear_freeOffset]

namespace Rep

theorem count_le (h : Rep c d p rs) : rs.length ≤ p.freeOffset := by
  have hmul := Nat.le_mul_of_pos_right rs.length c.slotSize_pos
  exact hmul.trans h.room

theorem slot_eq (h : Rep c d p (us ++ e :: vs)) : p.slot c us.length = e.1 := by
  have hs := h.slots
  rw [List.map_append, List.map_cons, reads_append, reads_cons, List.length_map, Nat.zero_add] at hs
  exact hs.2.1

theorem get_eq (h : Rep c d p (us ++ e :: vs)) : p.get c d us.length = e.2 := by
  rw [Page.get, h.slot_eq]
  exact (h.vals e (by simp)).load

theorem get_eq_getElem (h : Rep c d p rs) {i : ℕ} (hi : i < rs.length) :
    p.get c d i = rs[i].2 := by
  obtain ⟨us, vs, hsplit, hlen⟩ := exists_split hi
  rw [hsplit] at h
  have hget := h.get_eq
  rwa [hlen] at hget

/-- Decoding the page gives the values of its records. -/
theorem contents_eq (h : Rep c d p rs) :
    (List.range p.count).map (p.get c d) = rs.map Prod.snd := by
  rw [h.count]
  refine List.ext_getElem (by simp) fun i hi _ => ?_
  have hlt : i < rs.length := by simpa using hi
  simpa using h.get_eq_getElem hlt

/-- Keeping some of the records, in any order. -/
theorem reorder (h : Rep c d p rs) (hsub : rs'.Subperm rs) (hcount : q.count = rs'.length)
    (hfree : q.freeOffset = p.freeOffset) (hslots : Reads (q.slot c) 0 (rs'.map Prod.fst))
    (hbytes : ∀ x, rs.length * c.slotSize ≤ x → q.bytes x = p.bytes x) : Rep c d q rs' := by
  have hroom := h.room
  have hmul := Nat.mul_le_mul_right c.slotSize hsub.length_le
  obtain ⟨ts, hperm, hsubl⟩ := hsub
  have hmem : ∀ e ∈ rs', e ∈ rs := fun e he => hsubl.subset (hperm.mem_iff.mpr he)
  refine ⟨hcount, hslots, fun e he => ?_, fun e he => ?_, ?_, ?_, ?_⟩
  · have hin := (h.inside e (hmem e he)).1
    exact (h.vals e (hmem e he)).congr fun j _ => hbytes _ (by omega)
  · rw [hfree]
    exact h.inside e (hmem e he)
  · exact (hperm.pairwise_iff fun hef => hef.symm).mp (h.apart.sublist hsubl)
  · omega
  · rw [hfree]
    exact h.free_le

/-- Dropping one slot. -/
theorem erase (h : Rep c d p (us ++ e :: vs)) (hn : n + us.length + 1 = p.count) :
    Rep c d { shiftDown c us.length n p with
      count := c.wrap ((shiftDown c us.length n p).count - 1 : ℤ) } (us ++ vs) := by
  obtain ⟨hframe, hslot⟩ := shiftDown_spec (c := c) us.length n p
  have hcount := h.count
  have hbody := c.bodySize_lt
  have hle := h.count_le
  have hfree := h.free_le
  have hslots := h.slots
  simp only [List.length_append, List.length_cons] at hcount hle
  refine h.reorder (List.Sublist.subperm (by simp)) ?_ hframe.freeOffset ?_ fun x hx => ?_
  · show c.wrap ((shiftDown c us.length n p).count - 1 : ℤ) = _
    rw [hframe.count, List.length_append,
      show (p.count - 1 : ℤ) = (us.length + vs.length : ℕ) by omega, Config.wrap_of_lt (by omega)]
  · rw [List.map_append, List.map_cons] at hslots
    rw [List.map_append]
    refine hslots.erase fun i hi => (hslot i).trans ?_
    simp only [List.length_append, List.length_map] at hi ⊢
    by_cases hlt : i < us.length
    · rw [if_neg (by omega), if_pos hlt]
    · rw [if_pos (by omega), if_neg hlt]
  · refine hframe.bytes x (Nat.le_trans (Nat.mul_le_mul_right _ ?_) hx)
    rw [List.length_append, List.length_cons]
    omega

/-- Writing over one record leaves the others alone. -/
theorem overwrite (h : Rep c d p (us ++ e :: vs)) (hv : d.size v = d.size e.2) :
    Rep c d (p.write d e.1 v) (us ++ (e.1, v) :: vs) := by
  have hroom := h.room
  have hin := h.inside e (by simp)
  have hslots := h.slots
  have hap := h.apart
  have hkeep : ∀ f, Apart d e f → d.At p.bytes f.1 f.2 → d.At (p.write d e.1 v).bytes f.1 f.2 := by
    intro f hef hval
    refine hval.congr fun j hj => ?_
    rcases hef with hle | hle
    · exact Codec.store_of_le (by omega)
    · exact Codec.store_of_lt (by omega)
  obtain ⟨hus, hevs, hcross⟩ := List.pairwise_append.mp hap
  obtain ⟨hevs, hvs⟩ := List.pairwise_cons.mp hevs
  -- the new record takes exactly the bytes of the old one
  have hsame : ∀ f, Apart d e f → Apart d (e.1, v) f := fun f hef => by rwa [Apart, hv]
  refine ⟨by simpa using h.count, ?_, fun f hf => ?_, fun f hf => ?_, ?_, by simpa using h.room,
    h.free_le⟩
  · rw [show (us ++ (e.1, v) :: vs).map Prod.fst = (us ++ e :: vs).map Prod.fst by simp]
    refine hslots.congr fun i _ hi => slot_congr fun x hx => Codec.store_of_lt ?_
    rw [List.length_map, Nat.zero_add] at hi
    have hend := slot_end_le (c := c) hi
    omega
  · rcases List.mem_append.mp hf with hu | hf
    · exact hkeep f (hcross f hu e (by simp)).symm (h.vals f (by simp [hu]))
    · rcases List.mem_cons.mp hf with rfl | hf
      · exact Codec.at_store _ _ _
      · exact hkeep f (hevs f hf) (h.vals f (by simp [hf]))
  · rcases List.mem_append.mp hf with hu | hf
    · exact h.inside f (by simp [hu])
    · rcases List.mem_cons.mp hf with rfl | hf
      · exact ⟨hin.1, hv ▸ hin.2⟩
      · exact h.inside f (by simp [hf])
  · refine List.pairwise_append.mpr ⟨hus, List.pairwise_cons.mpr
      ⟨fun f hf => hsame f (hevs f hf), hvs⟩, fun f hf g hg => ?_⟩
    rcases List.mem_cons.mp hg with rfl | hg
    · exact (hsame f (hcross f hf e (by simp)).symm).symm
    · exact hcross f hf g (by simp [hg])

end Rep

/-- The record of `v` is written at the free offset `o`, below all others, and the directory has
space for its slot. -/
structure Written (c : Config) (d : Codec κ) (p : Page) (o : ℕ) (v : κ) (rs : List (ℕ × κ)) :
    Prop where
  rep : Rep c d p rs
  free : p.freeOffset = o
  value : d.At p.bytes o v
  below : ∀ e ∈ rs, o + d.size v ≤ e.1
  inside : o + d.size v ≤ c.bodySize
  room : (rs.length + 1) * c.slotSize ≤ o

theorem Rep.write_new (h : Rep c d p rs) (v : κ)
    (hfits : rs.length * c.slotSize + (d.size v + c.slotSize) ≤ p.freeOffset) :
    Written c d (Page.write d { p with freeOffset := p.freeOffset - d.size v }
      (p.freeOffset - d.size v) v) (p.freeOffset - d.size v) v rs := by
  have hbelow : ∀ x, x < p.freeOffset - d.size v →
      d.store p.bytes (p.freeOffset - d.size v) v x = p.bytes x := fun x => Codec.store_of_lt
  have habove : ∀ x, p.freeOffset ≤ x →
      d.store p.bytes (p.freeOffset - d.size v) v x = p.bytes x := fun x hx =>
    Codec.store_of_le (by omega)
  have hfree := h.free_le
  refine ⟨⟨h.count, h.slots.congr fun i _ hi => ?_, fun e he => ?_, fun e he => ?_, h.apart, ?_,
    ?_⟩, rfl, Codec.at_store _ _ _, fun e he => ?_, by omega, ?_⟩
  · rw [List.length_map, Nat.zero_add] at hi
    have hend := slot_end_le (c := c) hi
    exact slot_congr fun x hx => hbelow x (by omega)
  · have hin := (h.inside e he).1
    exact (h.vals e he).congr fun j _ => habove _ (by omega)
  · have hin := h.inside e he
    exact ⟨show p.freeOffset - d.size v ≤ e.1 by omega, hin.2⟩
  · show rs.length * c.slotSize ≤ p.freeOffset - d.size v
    omega
  · show p.freeOffset - d.size v ≤ c.bodySize
    omega
  · have hin := (h.inside e he).1
    omega
  · rw [Nat.succ_mul]
    omega

namespace Written

/-- The next value of `count` does not wrap. -/
theorem wrap_count (h : Written c d p o v rs) : c.wrap (p.count + 1 : ℤ) = rs.length + 1 := by
  have hbody := c.bodySize_lt
  have hinside := h.inside
  have hroom := h.room
  have hlen := Nat.le_mul_of_pos_right (rs.length + 1) c.slotSize_pos
  rw [h.rep.count, ← Nat.cast_succ, Config.wrap_of_lt (by omega)]

theorem lt_slot (h : Written c d p o v rs) : o < 256 ^ c.slotSize := by
  have hbody := c.bodySize_lt
  have hinside := h.inside
  omega

/-- The directory takes up the record. -/
theorem take_up (h : Written c d p o v (us ++ vs)) (hcount : q.count = (us ++ vs).length + 1)
    (hfree : q.freeOffset = p.freeOffset)
    (hslots : Reads (q.slot c) 0 (us.map Prod.fst ++ o :: vs.map Prod.fst))
    (hbytes : ∀ x, ((us ++ vs).length + 1) * c.slotSize ≤ x → q.bytes x = p.bytes x) :
    Rep c d q (us ++ (o, v) :: vs) := by
  have hroom := h.room
  have hmem : ∀ e ∈ us ++ (o, v) :: vs, e = (o, v) ∨ e ∈ us ++ vs := by
    intro e he
    simp only [List.mem_append, List.mem_cons] at he ⊢
    tauto
  refine ⟨?_, by simpa using hslots, fun e he => ?_, fun e he => ?_, ?_, ?_, ?_⟩
  · rw [hcount]
    simp only [List.length_append, List.length_cons]
    omega
  · rcases hmem e he with rfl | he
    · exact h.value.congr fun j _ => hbytes _ (by omega)
    · have := h.below e he
      exact (h.rep.vals e he).congr fun j _ => hbytes _ (by omega)
  · rw [hfree]
    rcases hmem e he with rfl | he
    · exact ⟨h.free.le, h.inside⟩
    · exact h.rep.inside e he
  · have hap := h.rep.apart
    rw [List.pairwise_append] at hap
    refine List.pairwise_append.mpr ⟨hap.1, List.pairwise_cons.mpr ⟨fun f hf => ?_, hap.2.1⟩, ?_⟩
    · exact Or.inl (h.below f (List.mem_append_right us hf))
    · intro e he f hf
      rcases List.mem_cons.mp hf with rfl | hf
      · exact Or.inr (h.below e (List.mem_append_left vs he))
      · exact hap.2.2 e he f hf
  · rw [hfree, h.free]
    simpa [Nat.add_assoc] using hroom
  · rw [hfree]
    exact h.rep.free_le

/-- The slot behind the last one. -/
theorem append_slot (h : Written c d p o v rs) :
    Rep c d { p.setSlot c p.count o with count := c.wrap (p.count + 1) } (rs ++ [(o, v)]) := by
  have hcount := h.rep.count
  have hslots := h.rep.slots
  have hlt := h.lt_slot
  have hlast : (p.setSlot c p.count o).slot c p.count = o := slot_setSlot_self p _ hlt
  rw [← List.append_nil rs] at h
  refine h.take_up (by simpa using h.wrap_count) rfl ?_ fun x hx => ?_
  · rw [reads_append, reads_cons]
    refine ⟨hslots.congr fun i _ hi => ?_, ?_, trivial⟩
    · rw [List.length_map, Nat.zero_add] at hi
      exact slot_setSlot_of_ne p _ (by omega)
    · rwa [List.length_map, Nat.zero_add, ← hcount]
  · refine setSlot_bytes p _ ?_
    rwa [hcount, ← Nat.succ_mul, ← List.append_nil rs]

/-- A slot between two others. -/
theorem open_slot (h : Written c d p o v (us ++ vs)) :
    Rep c d ((p.openSlot c us.length).setSlot c us.length o) (us ++ (o, v) :: vs) ∧
      ((p.openSlot c us.length).setSlot c us.length o).freeOffset = o := by
  have hcount := h.rep.count
  have hslots := h.rep.slots
  have hidx : us.length ≤ p.count := by
    rw [hcount, List.length_append]
    omega
  obtain ⟨hc, hfree, hbytes, hslot⟩ := openSlot_spec (c := c) p hidx h.lt_slot
  rw [hcount] at hbytes hslot
  refine ⟨h.take_up (hc.trans h.wrap_count) hfree ?_ hbytes, hfree.trans h.free⟩
  rw [List.map_append] at hslots
  refine hslots.insert fun i hi => ?_
  rw [hslot i (by simpa using hi), List.length_map]

end Written
end Page
end YwStorage.OrderedNode

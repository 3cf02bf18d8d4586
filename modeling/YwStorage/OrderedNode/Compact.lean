import YwStorage.OrderedNode.Placed
import YwStorage.Lib.Run

/-!
`compact`: the records in use are appended to a fresh page. They fit, since a page never holds more
than it has given out; what is lost is the space of removed records.
-/
namespace YwStorage.OrderedNode
open Bytes Slots

namespace Page
variable {κ α : Type*} [LinearOrder α]

section Calls
variable (c : Config) (d : Codec κ) (key : κ → α) (p : Page)

/-- The loop of `copy_node` from `i` on, with `n` turns left. -/
def copyLoop : ℕ → ℕ → Page → Bool × Page
  | _, 0, target => (true, target)
  | i, n + 1, target =>
    match target.append c d (p.get c d i) with
    | (true, target) => copyLoop (i + 1) n target
    | (false, target) => (false, target)

def copyNode (target : Page) (beginIdx endIdx : ℕ) : Bool × Page :=
  p.copyLoop c d beginIdx (endIdx - beginIdx) target

/-- `compact`, with the page itself and the target after it. -/
def compact (target : Page) : Bool × Page × Page :=
  let r := p.copyNode c d (target.clear c) 0 p.count
  (r.1, p, r.2)

/-- The calls that change a page record by record. -/
inductive Edit (κ : Type*)
  | insert (value : κ)
  | append (value : κ)
  | removeAt (idx : ℕ)
  | removeKey (value : κ)
  | inplaceUpdate (value : κ)

/-- The size of a new record fits a `SLOT`. -/
def Edit.Fits : Edit κ → Prop
  | .insert v | .append v => d.size v < 256 ^ c.slotSize
  | .removeAt _ | .removeKey _ | .inplaceUpdate _ => True

def edit : Edit κ → Bool × Page
  | .insert v => p.insert c d key v
  | .append v => p.append c d v
  | .removeAt idx => p.removeAt c idx
  | .removeKey v => p.removeKey c d key v
  | .inplaceUpdate v => p.inplaceUpdate c d key v

/-- One call, on a page that is sorted or not. -/
def EditStep (p : Page) (e : Edit κ) (q : Page) : Prop := (p.edit c d key e).2 = q

end Calls

variable {c : Config} {d : Codec κ} {key : κ → α} {p q : Page} {v : κ} {a : AbsPage κ}
  {rs us vs : List (ℕ × κ)} {e : ℕ × κ} {i : ℕ}

/-- The page holds the records `rs`, and together they are not longer than what it has given out. -/
structure Weighed (c : Config) (d : Codec κ) (p : Page) (rs : List (ℕ × κ)) : Prop where
  rep : Rep c d p rs
  weight : (rs.map fun e => d.size e.2).sum + p.freeOffset ≤ c.bodySize

theorem weighed_clear (c : Config) (d : Codec κ) (p : Page) : Weighed c d (p.clear c) [] := by
  refine ⟨rep_clear c d p, ?_⟩
  rw [clear_freeOffset]
  simp

namespace Weighed

/-- A new record of a page, at any place of the directory. -/
theorem add (h : Weighed c d p (us ++ vs)) (hrep : Rep c d q (us ++ e :: vs))
    (hfree : q.freeOffset + d.size e.2 = p.freeOffset) : Weighed c d q (us ++ e :: vs) := by
  have hweight := h.weight
  refine ⟨hrep, ?_⟩
  simp only [List.map_append, List.map_cons, List.sum_append, List.sum_cons] at hweight ⊢
  omega

theorem append (h : Weighed c d p rs) (hsize : d.size v < 256 ^ c.slotSize) :
    ∃ rs', Weighed c d (p.append c d v).2 rs' := by
  by_cases hfits : rs.length * c.slotSize + (d.size v + c.slotSize) ≤ p.freeOffset
  · obtain ⟨halloc, hnull⟩ := alloc_fits h.rep hsize hfits
    have hrep := (h.rep.write_new v hfits).append_slot
    rw [Page.append, halloc]
    simp only [if_neg hnull]
    rw [← List.append_nil rs] at h
    refine ⟨_, h.add hrep ?_⟩
    show p.freeOffset - d.size v + d.size v = p.freeOffset
    omega
  · rw [append_full h.rep hsize hfits]
    exact ⟨rs, h⟩

theorem insert (h : Weighed c d p rs) (hsize : d.size v < 256 ^ c.slotSize) :
    ∃ rs', Weighed c d (p.insert c d key v).2 rs' := by
  by_cases hfits : rs.length * c.slotSize + (d.size v + c.slotSize) ≤ p.freeOffset
  · obtain ⟨halloc, hnull⟩ := alloc_fits h.rep hsize hfits
    have hw := h.rep.write_new v hfits
    rw [Page.insert, halloc]
    simp only [if_neg hnull]
    -- the search may end anywhere, but not outside the directory
    obtain ⟨hlo, hhi⟩ := binarySearch_mem c d key (Page.write d
      { p with freeOffset := p.freeOffset - d.size v } (p.freeOffset - d.size v) v) v
    generalize binarySearch c d key (Page.write d { p with freeOffset := p.freeOffset - d.size v }
      (p.freeOffset - d.size v) v) v = r at hlo hhi ⊢
    have hcount : (r : ℤ) < rs.length := by
      rw [← h.rep.count]
      exact hhi
    obtain ⟨k, hk⟩ := Int.eq_ofNat_of_zero_le (show 0 ≤ r + 1 by omega)
    have hlen : (rs.take k).length = k := by
      rw [List.length_take]
      omega
    have hidx : c.wrap (r + 1) = (rs.take k).length := by
      have hle := h.rep.count_le
      have hbody := c.bodySize_lt
      have hfree := h.rep.free_le
      rw [hk, Config.wrap_of_lt (by omega), hlen]
    rw [← List.take_append_drop k rs] at h hw
    rw [hidx]
    refine ⟨_, h.add hw.open_slot.1 ?_⟩
    rw [hw.open_slot.2]
    show p.freeOffset - d.size v + d.size v = p.freeOffset
    omega
  · rw [insert_full h.rep hsize hfits]
    exact ⟨rs, h⟩

/-- Dropping records, or their order, does not add to the weight. -/
theorem erase (h : Weighed c d p (us ++ e :: vs)) (hrep : Rep c d q (us ++ vs))
    (hfree : q.freeOffset = p.freeOffset) : Weighed c d q (us ++ vs) := by
  have hweight := h.weight
  refine ⟨hrep, ?_⟩
  simp only [List.map_append, List.map_cons, List.sum_append, List.sum_cons] at hweight ⊢
  omega

theorem removeAt (h : Weighed c d p rs) (i : ℕ) : ∃ rs', Weighed c d (p.removeAt c i).2 rs' := by
  have hcount := h.rep.count
  by_cases hi : i < rs.length
  · obtain ⟨us, vs, hsplit, rfl⟩ := exists_split hi
    generalize rs[us.length] = e at hsplit
    subst hsplit
    rw [List.length_append, List.length_cons] at hcount
    have hrep := h.rep.erase (n := p.count - 1 - us.length) (by omega)
    have hframe := (shiftDown_spec (c := c) us.length (p.count - 1 - us.length) p).1
    rw [Page.removeAt, if_neg (by omega)]
    exact ⟨us ++ vs, h.erase hrep hframe.freeOffset⟩
  · rw [Page.removeAt, if_pos (by omega)]
    exact ⟨rs, h⟩

theorem removeKey (h : Weighed c d p rs) (v : κ) :
    ∃ rs', Weighed c d (p.removeKey c d key v).2 rs' := by
  simp only [Page.removeKey]
  split
  · split
    · exact h.removeAt _
    · exact ⟨rs, h⟩
  · exact ⟨rs, h⟩

theorem inplaceUpdate (h : Weighed c d p rs) (v : κ) :
    ∃ rs', Weighed c d (p.inplaceUpdate c d key v).2 rs' := by
  rw [Page.inplaceUpdate]
  have hnonneg : 0 ≤ if p.binarySearch c d key v < 0 then 0 else p.binarySearch c d key v := by
    split <;> omega
  obtain ⟨i, hi⟩ := Int.eq_ofNat_of_zero_le hnonneg
  simp only [hi, Int.toNat_natCast]
  split
  · rename_i hlt
    have hlt' : i < rs.length := by
      rw [← h.rep.count]
      omega
    obtain ⟨us, vs, hsplit, rfl⟩ := exists_split hlt'
    generalize rs[us.length] = e at hsplit
    subst hsplit
    rw [h.rep.get_eq, h.rep.slot_eq]
    split
    · rename_i hsize
      have hweight := h.weight
      refine ⟨_, h.rep.overwrite hsize, ?_⟩
      simpa [hsize, Page.write] using hweight
    · exact ⟨_, h⟩
  · exact ⟨rs, h⟩

end Weighed

/-- Whatever is edited, a page never holds more than it has given out. -/
theorem weighed_edit {e : Edit κ} (hfits : e.Fits c d) (h : Weighed c d p rs) :
    ∃ rs', Weighed c d (p.edit c d key e).2 rs' := by
  cases e with
  | insert v => exact h.insert hfits
  | append v => exact h.append hfits
  | removeAt idx => exact h.removeAt idx
  | removeKey v => exact h.removeKey v
  | inplaceUpdate v => exact h.inplaceUpdate v

/-- The space that records take in a page without gaps. -/
def footprint (c : Config) (d : Codec κ) (l : List κ) : ℕ :=
  (l.map fun v => d.size v + c.slotSize).sum

theorem footprint_append (l l' : List κ) :
    footprint c d (l ++ l') = footprint c d l + footprint c d l' := by
  simp [footprint]

theorem footprint_eq (l : List κ) :
    footprint c d l = (l.map d.size).sum + l.length * c.slotSize := by
  induction l with
  | nil => simp [footprint]
  | cons v l ih =>
    rw [footprint, List.map_cons, List.sum_cons, ← footprint, ih, List.map_cons, List.sum_cons,
      List.length_cons, Nat.succ_mul]
    omega

/-- Without gaps the records of a page fit one. -/
theorem Weighed.footprint_le (h : Weighed c d p rs) :
    footprint c d (rs.map Prod.snd) ≤ c.bodySize := by
  have hweight := h.weight
  have hroom := h.rep.room
  rw [footprint_eq, List.map_map, List.length_map]
  simp only [Function.comp_def]
  omega

/-- The page holds `l` without gaps. -/
def Packed (c : Config) (d : Codec κ) (p : Page) (l : List κ) : Prop :=
  ∃ rs, Abstracts c d p ⟨l, (l.map d.size).sum⟩ rs

theorem packed_clear (c : Config) (d : Codec κ) (p : Page) : Packed c d (p.clear c) [] :=
  ⟨[], abstracts_clear c d p⟩

theorem Packed.append {l : List κ} (h : Packed c d p l) (hsize : d.size v < 256 ^ c.slotSize)
    (hfits : footprint c d (l ++ [v]) ≤ c.bodySize) :
    ∃ q, p.append c d v = (true, q) ∧ Packed c d q (l ++ [v]) := by
  obtain ⟨rs, habs⟩ := h
  obtain ⟨rs', hok, habs'⟩ := append_spec habs hsize
  have hroom : AbsPage.Fits c d.size ⟨l, (l.map d.size).sum⟩ v := by
    rw [footprint_eq, List.map_append, List.sum_append, List.length_append, Nat.add_mul] at hfits
    simp only [List.map_cons, List.map_nil, List.sum_cons, List.sum_nil, List.length_singleton]
      at hfits
    show l.length * c.slotSize + (l.map d.size).sum + (d.size v + c.slotSize) ≤ c.bodySize
    omega
  rw [AbsPage.append, if_pos hroom] at hok habs'
  refine ⟨_, Prod.ext hok rfl, rs', ?_⟩
  simpa using habs'

/-- Every append of the loop finds its space. -/
theorem copyLoop_spec (h : Rep c d p (us ++ vs))
    (hfits : footprint c d ((us ++ vs).map Prod.snd) ≤ c.bodySize)
    (ht : Packed c d q (us.map Prod.snd)) :
    ∃ t, p.copyLoop c d us.length vs.length q = (true, t) ∧
      Packed c d t ((us ++ vs).map Prod.snd) := by
  induction vs generalizing us q with
  | nil => exact ⟨q, rfl, by simpa using ht⟩
  | cons e vs ih =>
    have hprefix : footprint c d (us.map Prod.snd ++ [e.2]) ≤ c.bodySize := by
      rw [List.map_append, List.map_cons, ← List.singleton_append, ← List.append_assoc,
        footprint_append] at hfits
      omega
    have hsize : d.size e.2 < 256 ^ c.slotSize := by
      have hin := (h.inside e (by simp)).2
      have hbody := c.bodySize_lt
      omega
    obtain ⟨q', happend, ht'⟩ := ht.append hsize hprefix
    rw [← List.singleton_append, ← List.append_assoc] at h hfits ⊢
    obtain ⟨t, hloop, hpacked⟩ := ih h hfits (by simpa using ht')
    refine ⟨t, ?_, hpacked⟩
    rw [List.append_assoc, List.singleton_append] at h
    rw [List.singleton_append, List.length_cons, copyLoop, h.get_eq, happend]
    simpa using hloop

/-- `compact` of a page that was only edited by calls of its own succeeds and keeps its records, in
their order and without gaps. -/
theorem compact_keeps_records {p₀ : Page} {es : List (Edit κ)}
    (hrun : Lts.Run (EditStep c d key) (p₀.clear c) es p) (hfits : ∀ e ∈ es, e.Fits c d)
    (target : Page) :
    ∃ t, p.compact c d target = (true, p, t) ∧ t.contents c d = p.contents c d ∧
      t.getFree c + footprint c d (p.contents c d) = c.pageSize - c.metaSize := by
  obtain ⟨rs, h⟩ : ∃ rs, Weighed c d p rs := by
    refine (hrun.restrict_labels hfits).invariant (P := fun p => ∃ rs, Weighed c d p rs)
      (fun p e q hstep hp => ?_) ⟨[], weighed_clear c d p₀⟩
    obtain ⟨rs, hp⟩ := hp
    rw [← show (p.edit c d key e).2 = q from hstep.1]
    exact weighed_edit hstep.2 hp
  have hcontents : p.contents c d = rs.map Prod.snd := h.rep.contents_eq
  have hrep : Rep c d p ([] ++ rs) := h.rep
  obtain ⟨t, hloop, rs', ht⟩ := copyLoop_spec hrep h.footprint_le (packed_clear c d target)
  rw [List.nil_append] at ht
  rw [List.length_nil] at hloop
  refine ⟨t, ?_, ht.contents_eq.trans hcontents.symm, ?_⟩
  · simp only [compact, copyNode, Nat.sub_zero, h.rep.count, hloop]
  · have hfree := ht.getFree
    have hcount : t.count = rs.length := by
      rw [ht.rep.count, ← List.length_map (f := Prod.snd), ht.entries, List.length_map]
    simp only [hcount] at hfree
    rw [hcontents, footprint_eq, List.length_map]
    show t.getFree c + _ = c.bodySize
    omega

/-- A page of two records, one of which was removed. -/
theorem gappedPage_compacts :
    ∃ p t, Lts.Run (EditStep byteConfig byteCodec UInt8.toNat) (blank.clear byteConfig)
        [.insert 5, .insert 3, .removeKey 5] p ∧
      p.compact byteConfig byteCodec blank = (true, p, t) ∧
      t.contents byteConfig byteCodec = p.contents byteConfig byteCodec := by
  have hrun : Lts.Run (EditStep byteConfig byteCodec UInt8.toNat) (blank.clear byteConfig)
      [.insert 5, .insert 3, .removeKey 5] _ := .stepL rfl (.stepL rfl (.single rfl))
  obtain ⟨t, hcompact, hcontents, -⟩ :=
    compact_keeps_records hrun (by simp [Edit.Fits, byteCodec, byteConfig]) blank
  exact ⟨_, t, hrun, hcompact, hcontents⟩

end Page
end YwStorage.OrderedNode

import YwStorage.OrderedNode.Refines
import YwStorage.Lib.Run

/-! Histories of calls on one page, answered by its bytes and by a list. -/
namespace YwStorage.OrderedNode
open Bytes

inductive Op (κ : Type*)
  | insert (value : κ)
  | append (value : κ)
  | removeAt (idx : ℕ)
  | removeKey (value : κ)
  | inplaceUpdate (value : κ)
  | sort
  | get (idx : ℕ)
  deriving DecidableEq

inductive Reply (κ : Type*)
  | done (ok : Bool)
  | sorted
  | value (v : κ)
  deriving DecidableEq

variable {κ α : Type*} [LinearOrder α]

namespace Page
variable (c : Config) (d : Codec κ) (key : κ → α)

/-- `get(0), ..., get(count - 1)`. -/
def contents (p : Page) : List κ := (List.range p.count).map (p.get c d)

/-- The calls that search need a sorted page, and `get` needs an index in use. -/
def Allowed (p : Page) : Op κ → Prop
  | .insert _ | .removeKey _ | .inplaceUpdate _ =>
    (p.contents c d).Pairwise fun x y => key x ≤ key y
  | .get idx => idx < p.count
  | .append _ | .removeAt _ | .sort => True

instance (p : Page) : DecidablePred (Allowed c d key p)
  | .insert _ | .removeKey _ | .inplaceUpdate _ => inferInstanceAs (Decidable (List.Pairwise _ _))
  | .get _ => inferInstanceAs (Decidable (_ < _))
  | .append _ | .removeAt _ | .sort => inferInstanceAs (Decidable True)

/-- One call; only `sort` can run out of fuel. -/
def call (fuel : ℕ) (buf : ℕ → ℕ) (p : Page) : Op κ → Option (Reply κ × Page)
  | .insert v => some ((p.insert c d key v).map .done id)
  | .append v => some ((p.append c d v).map .done id)
  | .removeAt idx => some ((p.removeAt c idx).map .done id)
  | .removeKey v => some ((p.removeKey c d key v).map .done id)
  | .inplaceUpdate v => some ((p.inplaceUpdate c d key v).map .done id)
  | .sort => (p.sort c d key fuel buf).map fun q => (.sorted, q)
  | .get idx => some (.value (p.get c d idx), p)

/-- A call that returns. -/
def Step (p : Page) (x : Op κ × Reply κ) (q : Page) : Prop :=
  Allowed c d key p x.1 ∧ ∃ fuel buf, p.call c d key fuel buf x.1 = some (x.2, q)

/-- The page is not too full to be sorted. -/
def Sortable (p : Page) (op : Op κ) : Prop := op = .sort → 4 * p.count ≤ 256 ^ c.slotSize

instance [DecidableEq κ] (p : Page) (op : Op κ) : Decidable (Sortable c p op) :=
  inferInstanceAs (Decidable (_ → _))

/-- The directory and the records of the slots in use lie inside the page and do not overlap. -/
structure Laid (p : Page) : Prop where
  apart : ∀ i j, i < p.count → j < p.count → i ≠ j →
    p.slot c i + d.size (p.get c d i) ≤ p.slot c j ∨
      p.slot c j + d.size (p.get c d j) ≤ p.slot c i
  above : ∀ i, i < p.count → p.count * c.slotSize ≤ p.slot c i
  inside : ∀ i, i < p.count → p.slot c i + d.size (p.get c d i) ≤ c.bodySize

end Page

/-- One call on the list. -/
def AbsPage.Step (c : Config) (size : κ → ℕ) (key : κ → α) (a : AbsPage κ) :
    Op κ × Reply κ → AbsPage κ → Prop
  | (.insert v, r), b => (r, b) = (a.insert c size key v).map .done id
  | (.append v, r), b => (r, b) = (a.append c size v).map .done id
  | (.removeAt idx, r), b => (r, b) = (a.removeAt idx).map .done id
  | (.removeKey v, r), b => (r, b) = (a.removeKey key v).map .done id
  | (.inplaceUpdate v, r), b => (r, b) = (a.update size key v).map .done id
  | (.sort, r), b => r = .sorted ∧ b.entries.Perm a.entries ∧ b.Sorted key ∧ b.used = a.used
  | (.get idx, r), b => ∃ v, a.entries[idx]? = some v ∧ r = .value v ∧ b = a

namespace Page
variable {c : Config} {d : Codec κ} {key : κ → α} {p q : Page} {a : AbsPage κ}
  {rs : List (ℕ × κ)} {op : Op κ} {x : Op κ × Reply κ} {xs : List (Op κ × Reply κ)}

theorem Abstracts.contents_eq (h : Abstracts c d p a rs) : p.contents c d = a.entries :=
  h.rep.contents_eq.trans h.entries

theorem Abstracts.laid (h : Abstracts c d p a rs) : Laid c d p := by
  have hcount := h.rep.count
  have hroom := h.rep.room
  have hslot : ∀ i (hi : i < rs.length), p.slot c i = rs[i].1 := by
    intro i hi
    have := h.rep.slots.get (i := i) (by simpa using hi)
    simpa using this
  refine ⟨fun i j hi hj hij => ?_, fun i hi => ?_, fun i hi => ?_⟩
  · rw [hcount] at hi hj
    rw [hslot i hi, hslot j hj, h.rep.get_eq_getElem hi, h.rep.get_eq_getElem hj]
    rcases Nat.lt_or_gt_of_ne hij with hlt | hgt
    · exact List.pairwise_iff_getElem.mp h.rep.apart i j hi hj hlt
    · exact (List.pairwise_iff_getElem.mp h.rep.apart j i hj hi hgt).symm
  · rw [hcount] at hi ⊢
    rw [hslot i hi]
    exact hroom.trans (h.rep.inside _ (List.getElem_mem hi)).1
  · rw [hcount] at hi
    rw [hslot i hi, h.rep.get_eq_getElem hi]
    exact (h.rep.inside _ (List.getElem_mem hi)).2

theorem Abstracts.getFree (h : Abstracts c d p a rs) :
    p.getFree c + p.count * c.slotSize + a.used = c.bodySize := by
  have hroom := h.rep.room
  have hused := h.used
  rw [getFree_eq h.rep, h.rep.count]
  omega

theorem abstracts_clear (c : Config) (d : Codec κ) (p : Page) :
    Abstracts c d (p.clear c) .empty [] := by
  refine ⟨rep_clear c d p, rfl, ?_⟩
  rw [clear_freeOffset]
  rfl

theorem Abstracts.sorted_of_allowed (h : Abstracts c d p a rs)
    (hs : (p.contents c d).Pairwise fun x y => key x ≤ key y) : a.Sorted key := by
  rwa [h.contents_eq] at hs

/-- The reply and the page that a specification allows. -/
theorem answered {r : Bool × Page} {s : Bool × AbsPage κ} {reply : Reply κ}
    (hspec : ∃ rs, r.1 = s.1 ∧ Abstracts c d r.2 s.2 rs)
    (hcall : some (r.map .done id) = some (reply, q)) :
    ∃ b, (reply, b) = s.map .done id ∧ ∃ rs, Abstracts c d q b rs := by
  obtain ⟨rs, hreply, habs⟩ := hspec
  obtain ⟨rfl, rfl⟩ := Prod.mk.inj (Option.some.inj hcall)
  refine ⟨s.2, ?_, rs, habs⟩
  rw [hreply]
  rfl

/-- Every call that returns answers as the list does. -/
theorem step_simulates (hsize : ∀ v, d.size v < 256 ^ c.slotSize) (hstep : Step c d key p x q)
    (hsort : Sortable c p x.1) (h : ∃ rs, Abstracts c d p a rs) :
    ∃ b, AbsPage.Step c d.size key a x b ∧ ∃ rs, Abstracts c d q b rs := by
  obtain ⟨rs, h⟩ := h
  obtain ⟨op, r⟩ := x
  obtain ⟨hallowed, fuel, buf, hcall⟩ := hstep
  cases op with
  | insert v => exact answered (insert_spec h (hsize v) (h.sorted_of_allowed hallowed)) hcall
  | append v => exact answered (append_spec h (hsize v)) hcall
  | removeAt idx => exact answered (removeAt_spec h idx) hcall
  | removeKey v => exact answered (removeKey_spec h (h.sorted_of_allowed hallowed) v) hcall
  | inplaceUpdate v => exact answered (inplaceUpdate_spec h (h.sorted_of_allowed hallowed) v) hcall
  | sort =>
    obtain ⟨q', hsorted, heq⟩ := Option.map_eq_some_iff.mp hcall
    obtain ⟨rfl, rfl⟩ := Prod.mk.inj heq
    obtain ⟨q₁, rs', hq₁, hperm, hpair, habs⟩ := sort_spec key h (hsort rfl)
      (Nat.lt_succ_of_le (Nat.le_max_right fuel p.count)) buf
    have hq : q₁ = q' := by
      have := sort_mono (Nat.le_succ_of_le (Nat.le_max_left fuel p.count)) hsorted
      exact Option.some.inj (hq₁.symm.trans this)
    rw [hq] at habs
    refine ⟨{ a with entries := rs'.map Prod.snd }, ⟨rfl, ?_, hpair, rfl⟩, rs', habs⟩
    rw [← h.entries]
    exact hperm.map Prod.snd
  | get idx =>
    obtain ⟨rfl, rfl⟩ := Prod.mk.inj (Option.some.inj hcall)
    have hidx : idx < rs.length := h.rep.count ▸ hallowed
    refine ⟨a, ⟨_, ?_, rfl, rfl⟩, rs, h⟩
    rw [← h.entries, h.rep.get_eq_getElem hidx, List.getElem?_map, List.getElem?_eq_getElem hidx]
    rfl

/-- Every allowed call returns. -/
theorem exists_step (h : Abstracts c d p a rs) (hallowed : Allowed c d key p op)
    (hsort : Sortable c p op) : ∃ r q, Step c d key p (op, r) q := by
  cases op with
  | sort =>
    obtain ⟨q, -, hq, -⟩ := sort_spec key h (hsort rfl) (Nat.lt_succ_self p.count) fun _ => 0
    refine ⟨.sorted, q, hallowed, p.count + 1, fun _ => 0, ?_⟩
    simp only [call, hq, Option.map_some]
  | insert v | append v | removeAt idx | removeKey v | inplaceUpdate v | get idx =>
    exact ⟨_, _, hallowed, 0, fun _ => 0, rfl⟩

theorem removeAt_failed {idx : ℕ} (h : p.removeAt c idx = (false, q)) : q = p := by
  rw [removeAt] at h
  split at h
  · exact (Prod.mk.inj h).2.symm
  · cases (Prod.mk.inj h).1

theorem removeKey_failed {v : κ} (h : p.removeKey c d key v = (false, q)) : q = p := by
  simp only [removeKey] at h
  split at h
  · split at h
    · exact removeAt_failed h
    · exact (Prod.mk.inj h).2.symm
  · exact (Prod.mk.inj h).2.symm

theorem inplaceUpdate_failed {v : κ} (h : p.inplaceUpdate c d key v = (false, q)) : q = p := by
  rw [inplaceUpdate] at h
  generalize (if p.binarySearch c d key v < 0 then 0 else p.binarySearch c d key v) = idx at h
  split at h
  · split at h
    · cases (Prod.mk.inj h).1
    · exact (Prod.mk.inj h).2.symm
  · exact (Prod.mk.inj h).2.symm

/-- A call that fails leaves every byte as it is. -/
theorem eq_of_failed (h : Abstracts c d p a rs) (hsize : ∀ v, d.size v < 256 ^ c.slotSize)
    (hstep : Step c d key p (op, .done false) q) : q = p := by
  obtain ⟨hallowed, fuel, buf, hcall⟩ := hstep
  have hresult : ∀ r : Bool × Page,
      some (r.map Reply.done id) = some ((.done false : Reply κ), q) → r = (false, q) := by
    intro r hr
    obtain ⟨hb, hq⟩ := Prod.mk.inj (Option.some.inj hr)
    exact Prod.ext (Reply.done.inj hb) hq
  cases op with
  | insert v =>
    have hr := hresult _ hcall
    by_cases hfits : a.Fits c d.size v
    · obtain ⟨rs', hreply, -⟩ := insert_spec h (hsize v) (h.sorted_of_allowed hallowed)
      rw [hr, AbsPage.insert, if_pos hfits] at hreply
      cases hreply
    · rw [insert_full h.rep (hsize v) (mt h.fits_iff.mpr hfits)] at hr
      exact (Prod.mk.inj hr).2.symm
  | append v =>
    have hr := hresult _ hcall
    by_cases hfits : a.Fits c d.size v
    · obtain ⟨rs', hreply, -⟩ := append_spec h (hsize v)
      rw [hr, AbsPage.append, if_pos hfits] at hreply
      cases hreply
    · rw [append_full h.rep (hsize v) (mt h.fits_iff.mpr hfits)] at hr
      exact (Prod.mk.inj hr).2.symm
  | removeAt idx => exact removeAt_failed (hresult _ hcall)
  | removeKey v => exact removeKey_failed (hresult _ hcall)
  | inplaceUpdate v => exact inplaceUpdate_failed (hresult _ hcall)
  | sort =>
    obtain ⟨q', -, heq⟩ := Option.map_eq_some_iff.mp hcall
    cases (Prod.mk.inj heq).1
  | get idx => cases (Prod.mk.inj (Option.some.inj hcall)).1

/-- A page from `clear()` is a list in a bounded space, and each of its allowed calls returns. -/
theorem page_refines_list (hsize : ∀ v, d.size v < 256 ^ c.slotSize) {p₀ : Page}
    (hrun : Lts.Run (Lts.restrict (Step c d key) fun p x => Sortable c p x.1) (p₀.clear c) xs p) :
    ∃ a, Lts.Run (AbsPage.Step c d.size key) .empty xs a ∧ p.contents c d = a.entries ∧
      p.getFree c + p.count * c.slotSize + a.used = c.bodySize ∧ Laid c d p ∧
      (∀ op, Allowed c d key p op → Sortable c p op → ∃ r q, Step c d key p (op, r) q) ∧
      ∀ op q, Step c d key p (op, .done false) q → q = p := by
  obtain ⟨a, hrun', rs, h⟩ := hrun.simulation (R := fun p a => ∃ rs, Abstracts c d p a rs)
    ⟨[], abstracts_clear c d p₀⟩ fun p x q a hstep h => step_simulates hsize hstep.1 hstep.2 h
  exact ⟨a, hrun', h.contents_eq, h.getFree, h.laid, fun op => exists_step h,
    fun op q => eq_of_failed h hsize⟩

/-- A page of 256 bytes with one-byte slots and records. -/
def byteConfig : Config := ⟨1, 8, 256, by decide, by decide, by decide, by decide⟩

def byteCodec : Codec UInt8 := 
  ⟨fun _ => 1, fun v _ => v, .next .done, fun _ _ h => h 0 (by decide)⟩

def blank : Page := ⟨fun _ => 0, 0, 0⟩

/-- A page with the entries 3 and 5. -/
def pairPage : Page :=
  (((blank.clear byteConfig).append byteConfig byteCodec 3).2.append byteConfig byteCodec 5).2

/-- A call on such a page, with `check` on the state it is made in. -/
def checkedCall (check : Page → Op UInt8 → Bool) (p : Page) (op : Op UInt8) :
    Option ((Op UInt8 × Reply UInt8) × Page) :=
  if Allowed byteConfig byteCodec UInt8.toNat p op ∧ check p op then
    (p.call byteConfig byteCodec UInt8.toNat 8 (fun _ => 0) op).map fun r => ((op, r.1), r.2)
  else none

theorem step_of_checkedCall (check : Page → Op UInt8 → Bool) (p : Page) (op : Op UInt8)
    (x : Op UInt8 × Reply UInt8) (q : Page) (h : checkedCall check p op = some (x, q)) :
    Step byteConfig byteCodec UInt8.toNat p x q ∧ check p x.1 = true := by
  unfold checkedCall at h
  split_ifs at h with hc
  obtain ⟨⟨r, q'⟩, hcall, heq⟩ := Option.map_eq_some_iff.mp h
  obtain ⟨rfl, rfl⟩ := Prod.mk.inj heq
  exact ⟨⟨hc.1, 8, fun _ => 0, hcall⟩, hc.2⟩

def shortHistory : List (Op UInt8 × Reply UInt8) :=
  [(.append 9, .done true), (.append 3, .done true), (.sort, .sorted), (.insert 5, .done true),
    (.removeKey 9, .done true), (.inplaceUpdate 4, .done true), (.removeAt 7, .done false),
    (.get 0, .value 4)]

theorem shortHistory_refines :
    ∃ p, Lts.Run (Lts.restrict (Step byteConfig byteCodec UInt8.toNat) fun p x =>
        Sortable byteConfig p x.1) (blank.clear byteConfig) shortHistory p ∧
      ∃ a, Lts.Run (AbsPage.Step byteConfig (fun _ => 1) UInt8.toNat) .empty shortHistory a ∧
        p.contents byteConfig byteCodec = a.entries := by
  obtain ⟨p, hrun⟩ := Lts.exists_run
    (step_of_checkedCall fun p op => Sortable byteConfig p op) (blank.clear byteConfig)
    [.append 9, .append 3, .sort, .insert 5, .removeKey 9, .inplaceUpdate 4, .removeAt 7, .get 0]
    (show _ = some shortHistory by decide +kernel)
  have hrun' : Lts.Run (Lts.restrict (Step byteConfig byteCodec UInt8.toNat) fun p x =>
      Sortable byteConfig p x.1) (blank.clear byteConfig) shortHistory p :=
    hrun.mono fun p x q h => ⟨h.1, decide_eq_true_iff.mp h.2⟩
  obtain ⟨a, habs, hentries, -⟩ := page_refines_list (fun _ => show 1 < 256 by decide) hrun'
  exact ⟨p, hrun', a, habs, hentries⟩

/-- With 65 entries, the run length of `sort` wraps to zero before the page is sorted. -/
theorem crowdedPage_sort_diverges :
    ∃ p, Lts.Run (Step byteConfig byteCodec UInt8.toNat) (blank.clear byteConfig)
        (List.replicate 65 (.append 7, .done true)) p ∧
      ∀ fuel buf, p.sort byteConfig byteCodec UInt8.toNat fuel buf = none := by
  obtain ⟨p, hrun, hcount⟩ := Lts.exists_run_end (step_of_checkedCall fun _ _ => true)
    (blank.clear byteConfig) (List.replicate 65 (.append 7)) Page.count
    (show _ = some (List.replicate 65 (.append 7, .done true), 65) by decide +kernel)
  refine ⟨p, hrun.mono fun _ _ _ h => h.1, sort_diverges ?_⟩
  rw [hcount]
  decide

end Page
end YwStorage.OrderedNode

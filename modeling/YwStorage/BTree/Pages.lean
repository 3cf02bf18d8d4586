import YwStorage.BTree.Basic
import YwStorage.Lib.MultiSplit

/-! Calls on one page of the B-tree, and how its entries are searched. -/
namespace YwStorage.BTree
open OrderedNode MultiTree

variable {α : Type} [LinearOrder α] {c : Config} {p : Page α} {us vs : List (α × ℕ)}
  {e r : α × ℕ} {key : α} {n : ℕ}

/-- There is space for another record. -/
abbrev Page.Fits (c : Config) (p : Page α) : Prop :=
  p.entries.length * c.page.slotSize + p.body.used + (c.recordSize + c.page.slotSize) ≤
    c.page.bodySize

theorem get_of_cut (hp : p.entries = us ++ e :: vs) : p.get us.length = some e := by
  simp [Page.get, hp]

/-- The search for a key ends at its region. -/
theorem floor_of_cut (hp : p.entries = us ++ e :: vs) (hs : ∀ f ∈ us, f.1 < e.1)
    (he : us ≠ [] → e.1 ≤ key) (hv : ∀ f ∈ vs, key < f.1) : p.floor key = us.length := by
  rw [Page.floor, hp]
  by_cases hle : e.1 ≤ key
  · have hu : ∀ f ∈ us ++ [e], f.1 ≤ key := by
      rw [List.forall_mem_append, List.forall_mem_singleton]
      exact ⟨fun f hf => (hs f hf).le.trans hle, hle⟩
    have hcut : us ++ e :: vs = (us ++ [e]) ++ vs := by simp
    rw [hcut, below_of_cut (v := (key, 0)) hu hv]
    simp
  · obtain rfl : us = [] := by
      by_contra hne
      exact hle (he hne)
    have hbelow : below Prod.fst (key, 0) ([] ++ e :: vs) = [] := by simp [below, hle]
    rw [hbelow]
    rfl

theorem floor_lt (hne : p.entries ≠ []) : p.floor key < p.entries.length := by
  have hpos := List.length_pos_iff.mpr hne
  have hcut := congrArg List.length (below_append_above Prod.fst (key, 0) p.entries)
  rw [List.length_append] at hcut
  rw [Page.floor]
  omega

/-- Every key has a region in a list of entries. -/
theorem exists_region {β : Type} {es : List (α × β)} (hs : es.Pairwise fun e f => e.1 < f.1)
    (hne : es ≠ []) (key : α) :
    ∃ us e vs, es = us ++ e :: vs ∧ (us ≠ [] → e.1 ≤ key) ∧ ∀ f ∈ vs, key < f.1 := by
  have hle : es.Pairwise fun e f => e.1 ≤ f.1 := hs.imp fun h => h.le
  obtain ⟨e₀, es₀, rfl⟩ := List.exists_cons_of_ne_nil hne
  have hv : ∀ f ∈ above Prod.fst (key, e₀.2) (e₀ :: es₀), key < f.1 := fun f hf =>
    lt_of_mem_above hle hf
  have hcut := below_append_above Prod.fst (key, e₀.2) (e₀ :: es₀)
  rcases List.eq_nil_or_concat (below Prod.fst (key, e₀.2) (e₀ :: es₀)) with hnil | ⟨us, e, hbelow⟩
  · rw [hnil, List.nil_append] at hcut
    rw [hcut] at hv
    exact ⟨[], e₀, es₀, rfl, by simp, fun f hf => hv f (by simp [hf])⟩
  · rw [List.concat_eq_append] at hbelow
    refine ⟨us, e, _, ?_, fun _ => ?_, hv⟩
    · rw [hbelow, List.append_assoc, List.singleton_append] at hcut
      exact hcut.symm
    · have hmem : e ∈ below Prod.fst (key, e₀.2) (e₀ :: es₀) := by simp [hbelow]
      exact le_of_mem_below hmem

theorem insert_of_cut (hp : p.entries = us ++ vs) (hu : ∀ e ∈ us, e.1 ≤ r.1)
    (hv : ∀ e ∈ vs, r.1 < e.1) :
    p.insert c r = if p.Fits c then
      (true, { p with body := ⟨us ++ r :: vs, p.body.used + c.recordSize⟩ }) else (false, p) := by
  have hentries : p.body.entries = us ++ vs := hp
  unfold Page.insert AbsPage.insert
  by_cases hfits : p.Fits c
  · have hfits' : p.body.Fits c.page (fun _ => c.recordSize) r := hfits
    rw [if_pos hfits, if_pos hfits', hentries, below_of_cut hu hv, above_of_cut hu hv]
  · have hfits' : ¬ p.body.Fits c.page (fun _ => c.recordSize) r := hfits
    rw [if_neg hfits, if_neg hfits']

theorem append_of_fits (hfits : p.Fits c) :
    p.append c r = (true, { p with body := ⟨p.entries ++ [r], p.body.used + c.recordSize⟩ }) := by
  have hfits' : p.body.Fits c.page (fun _ => c.recordSize) r := hfits
  unfold Page.append AbsPage.append
  rw [if_pos hfits']

theorem update_of_cut (hp : p.entries = us ++ e :: vs) (hs : ∀ f ∈ us, f.1 < e.1)
    (he : us ≠ [] → e.1 ≤ r.1) (hv : ∀ f ∈ vs, r.1 < f.1) :
    p.inplaceUpdate c r = (true, { p with body := ⟨us ++ r :: vs, p.body.used⟩ }) := by
  have hentries : p.body.entries = us ++ e :: vs := hp
  have hidx : (below Prod.fst r p.body.entries).length - 1 = us.length := floor_of_cut hp hs he hv
  have hget : p.body.entries[us.length]? = some e := by simp [hentries]
  unfold Page.inplaceUpdate AbsPage.update
  rw [hidx, hget]
  simp [hentries]

theorem remove_of_cut {key : α} {v : ℕ} (hp : p.entries = us ++ (key, v) :: vs)
    (hu : ∀ e ∈ us, e.1 < key) (hv : ∀ e ∈ vs, key < e.1) :
    p.remove key = (true, { p with
      body := ⟨us ++ vs, p.body.used⟩
      old := p.entries.head?.or p.old }) := by
  have hentries : p.body.entries = (us ++ [(key, v)]) ++ vs := by simpa using hp
  have hle : ∀ e ∈ us ++ [(key, v)], e.1 ≤ key := by
    intro e he
    rcases List.mem_append.mp he with he | he
    · exact (hu e he).le
    · rw [List.mem_singleton.mp he]
  have hbelow : below Prod.fst (key, 0) p.body.entries = us ++ [(key, v)] := by
    rw [hentries]
    exact below_of_cut hle hv
  have habove : above Prod.fst (key, 0) p.body.entries = vs := by
    rw [hentries]
    exact above_of_cut hle hv
  unfold Page.remove AbsPage.removeKey
  rw [hbelow, habove, List.getLast?_concat, List.dropLast_concat]
  simp

theorem remove_of_absent {key : α} (hp : p.entries = us ++ vs) (hu : ∀ e ∈ us, e.1 < key)
    (hv : ∀ e ∈ vs, key < e.1) : (p.remove key).1 = false := by
  have hentries : p.body.entries = us ++ vs := hp
  have hbelow : below Prod.fst (key, 0) p.body.entries = us := by
    rw [hentries]
    exact below_of_cut (fun e he => (hu e he).le) hv
  unfold Page.remove AbsPage.removeKey
  rw [hbelow]
  rcases hlast : us.getLast? with _ | e
  · rfl
  · have hne : e.1 ≠ key := (hu e (List.mem_of_getLast? hlast)).ne
    simp [hne]

end YwStorage.BTree

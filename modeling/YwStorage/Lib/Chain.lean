import Mathlib

/-! Singly linked segments in a memory of cells. -/
namespace Chain

variable {α : Type*}

/-- From `a` through `l` to `b`. -/
def Seg (next : α → α) : α → List α → α → Prop
  | a, [], b => next a = b
  | a, x :: l, b => next a = x ∧ Seg next x l b

variable {next next' : α → α} {a b c x : α} {l : List α}

theorem Seg.congr (h : Seg next a l b) (heq : ∀ c ∈ a :: l, next' c = next c) :
    Seg next' a l b := by
  induction l generalizing a with
  | nil => exact (heq a (by simp)).trans h
  | cons y l ih =>
    obtain ⟨hay, hrest⟩ := h
    exact ⟨(heq a (by simp)).trans hay, ih hrest fun c hc => heq c (List.mem_cons_of_mem a hc)⟩

theorem Seg.next_eq (h : Seg next a l b) : next a = l.headD b := by
  cases l with
  | nil => exact h
  | cons y l => exact h.1

theorem Seg.next_mem (h : Seg next a l b) (hc : c ∈ a :: l) : next c ∈ l ++ [b] := by
  induction l generalizing a with
  | nil =>
    obtain rfl := List.mem_singleton.mp hc
    exact List.mem_singleton.mpr h
  | cons y l ih =>
    rcases List.mem_cons.mp hc with rfl | hc
    · rw [h.1]
      exact List.mem_cons_self
    · exact List.mem_cons_of_mem y (ih h.2 hc)

theorem Seg.next_split {us vs : List α} (h : Seg next a l b) (hl : a :: l = us ++ c :: vs) :
    next c = vs.headD b := by
  induction us generalizing a l with
  | nil =>
    obtain ⟨rfl, rfl⟩ := List.cons.inj hl
    exact h.next_eq
  | cons u us ih =>
    obtain ⟨rfl, rfl⟩ := List.cons.inj hl
    cases us with
    | nil => exact ih h.2 rfl
    | cons y us => exact ih h.2 rfl

theorem getLastD_mem_cons (us : List α) (a : α) : us.getLastD a ∈ a :: us := by
  induction us generalizing a with
  | nil => exact List.mem_cons_self
  | cons u us ih =>
    rw [List.getLastD_cons]
    exact List.mem_cons_of_mem a (ih u)

theorem Seg.next_getLastD {us vs : List α} (h : Seg next a (us ++ vs) b) :
    next (us.getLastD a) = vs.headD b := by
  induction us generalizing a with
  | nil => exact h.next_eq
  | cons u us ih =>
    rw [List.getLastD_cons]
    exact ih h.2

/-- A segment through `c` is one to `c` and one from there. -/
theorem seg_append_cons {us vs : List α} :
    Seg next a (us ++ c :: vs) b ↔ Seg next a us c ∧ Seg next c vs b := by
  induction us generalizing a with
  | nil => rfl
  | cons u us ih =>
    show next a = u ∧ Seg next u (us ++ c :: vs) b ↔ (next a = u ∧ Seg next u us c) ∧ _
    rw [ih, and_assoc]

/-- The same segment under other names for the cells. -/
theorem seg_map {β : Type*} {f : α → β} {g : β → α} (hgf : ∀ a, g (f a) = a) :
    Seg (fun p => f (next (g p))) (f a) (l.map f) (f b) ↔ Seg next a l b := by
  have hinj : Function.Injective f := Function.LeftInverse.injective hgf
  induction l generalizing a with
  | nil =>
    show f (next (g (f a))) = f b ↔ next a = b
    rw [hgf, hinj.eq_iff]
  | cons y l ih =>
    show f (next (g (f a))) = f y ∧ Seg _ (f y) (l.map f) (f b) ↔ next a = y ∧ Seg next y l b
    rw [hgf, hinj.eq_iff]
    exact and_congr_right fun _ => ih

/-- On a ring of two or more cells no cell leads to itself. -/
theorem Seg.next_ne_self (h : Seg next a l a) (hne : l ≠ []) (hnodup : (a :: l).Nodup)
    (hc : c ∈ a :: l) : next c ≠ c := by
  obtain ⟨us, vs, hl⟩ := List.append_of_mem hc
  rw [h.next_split hl]
  rw [hl] at hnodup
  cases vs with
  | nil =>
    rintro rfl
    cases us with
    | nil => exact hne (List.cons.inj hl).2
    | cons u us =>
      obtain ⟨rfl, -⟩ := List.cons.inj hl
      simp at hnodup
  | cons v vs =>
    rintro rfl
    simp [List.nodup_append] at hnodup

section Update
variable [DecidableEq α]

/-- A write elsewhere. -/
theorem Seg.write (h : Seg next a l b) (hc : c ∉ a :: l) :
    Seg (Function.update next c x) a l b := by
  refine h.congr fun d hd => Function.update_of_ne ?_ ..
  rintro rfl
  exact hc hd

/-- The cell that leads to the end is the last one, and another cell can be hung on it. -/
theorem Seg.snoc (h : Seg next a l b) (hnodup : (a :: l).Nodup) (hb : b ∉ l) (hc : c ∈ a :: l)
    (hlast : next c = b) (hx : x ∉ a :: l) (hnext : next x = b) :
    Seg (Function.update next c x) a (l ++ [x]) b := by
  induction l generalizing a with
  | nil =>
    obtain rfl := List.mem_singleton.mp hc
    refine ⟨Function.update_self .., ?_⟩
    exact (Function.update_of_ne (fun heq => hx (List.mem_singleton.mpr heq)) ..).trans hnext
  | cons y l ih =>
    obtain ⟨hay, hrest⟩ := h
    obtain ⟨ha, hnodup⟩ := List.nodup_cons.mp hnodup
    have hca : c ≠ a := by
      rintro rfl
      exact hb (hlast ▸ hay ▸ List.mem_cons_self)
    have hcy : c ∈ y :: l := (List.mem_cons.mp hc).resolve_left hca
    refine ⟨(Function.update_of_ne hca.symm ..).trans hay, ?_⟩
    exact ih hrest hnodup (fun h => hb (List.mem_cons_of_mem y h)) hcy
      fun h => hx (List.mem_cons_of_mem a h)

/-- The first cell is taken out. -/
theorem Seg.tail (h : Seg next a (x :: l) b) (hnodup : (a :: x :: l).Nodup) :
    Seg (Function.update next a (next x)) a l b := by
  obtain ⟨ha, hnodup⟩ := List.nodup_cons.mp hnodup
  obtain ⟨-, hrest⟩ := h
  cases l with
  | nil => exact (Function.update_self ..).trans hrest
  | cons y l =>
    refine ⟨(Function.update_self ..).trans hrest.1, ?_⟩
    exact hrest.2.write fun hmem => ha (List.mem_cons_of_mem x hmem)

/-- A cell is linked in behind the last one of `us`. -/
theorem Seg.insert {us vs : List α} (h : Seg next a (us ++ vs) b)
    (hnodup : (a :: (us ++ vs)).Nodup) (hx : x ∉ a :: (us ++ vs)) :
    Seg (Function.update (Function.update next x (next (us.getLastD a))) (us.getLastD a) x)
      a (us ++ x :: vs) b := by
  induction us generalizing a with
  | nil =>
    obtain ⟨ha, -⟩ := List.nodup_cons.mp hnodup
    have hxa : x ≠ a := fun heq => hx (heq ▸ List.mem_cons_self)
    refine ⟨Function.update_self .., ?_⟩
    show Seg (Function.update (Function.update next x (next a)) a x) x vs b
    cases vs with
    | nil =>
      show Function.update (Function.update next x (next a)) a x x = b
      rw [Function.update_of_ne hxa, Function.update_self]
      exact h
    | cons y vs =>
      refine ⟨?_, (h.2.write fun hmem => hx (List.mem_cons_of_mem a hmem)).write ha⟩
      rw [Function.update_of_ne hxa, Function.update_self]
      exact h.1
  | cons u us ih =>
    obtain ⟨ha, hnodup⟩ := List.nodup_cons.mp hnodup
    have hlast : us.getLastD u ≠ a := fun heq =>
      ha (List.mem_append_left vs (heq ▸ getLastD_mem_cons us u))
    have hxa : a ≠ x := fun heq => hx (heq ▸ List.mem_cons_self)
    rw [List.getLastD_cons]
    refine ⟨?_, ih h.2 hnodup fun hmem => hx (List.mem_cons_of_mem a hmem)⟩
    rw [Function.update_of_ne hlast.symm, Function.update_of_ne hxa]
    exact h.1

/-- The cell behind the last one of `us` is taken out. -/
theorem Seg.remove {us vs : List α} (h : Seg next a (us ++ x :: vs) b)
    (hnodup : (a :: (us ++ x :: vs)).Nodup) :
    Seg (Function.update next (us.getLastD a) (next x)) a (us ++ vs) b := by
  induction us generalizing a with
  | nil => exact h.tail hnodup
  | cons u us ih =>
    obtain ⟨ha, hnodup⟩ := List.nodup_cons.mp hnodup
    have hlast : us.getLastD u ≠ a := fun heq =>
      ha (List.mem_append_left _ (heq ▸ getLastD_mem_cons us u))
    rw [List.getLastD_cons]
    refine ⟨?_, ih h.2 hnodup⟩
    rw [Function.update_of_ne hlast.symm]
    exact h.1

/-- The last cell is led elsewhere. -/
theorem Seg.redirect (h : Seg next a l b) (hnodup : (a :: l).Nodup) :
    Seg (Function.update next (l.getLastD a) x) a l x := by
  induction l generalizing a with
  | nil => exact Function.update_self ..
  | cons y l ih =>
    obtain ⟨ha, hnodup⟩ := List.nodup_cons.mp hnodup
    rw [List.getLastD_cons]
    refine ⟨?_, ih h.2 hnodup⟩
    have hlast : a ≠ l.getLastD y := by
      intro heq
      exact ha (heq ▸ getLastD_mem_cons l y)
    rw [Function.update_of_ne hlast]
    exact h.1

/-- The cells from `m` to the last one of `ms` are left out. -/
theorem Seg.cutOut {m : α} {us ms vs : List α} (h : Seg next a (us ++ m :: (ms ++ vs)) b)
    (hnodup : (a :: (us ++ m :: (ms ++ vs))).Nodup) :
    Seg (Function.update next (us.getLastD a) (next (ms.getLastD m))) a (us ++ vs) b ∧
      ∃ e, Seg (Function.update next (us.getLastD a) (next (ms.getLastD m))) m ms e := by
  obtain ⟨hus, hrest⟩ := seg_append_cons.mp h
  rw [hrest.next_getLastD]
  rw [← List.cons_append] at hnodup
  obtain ⟨hfirst, -, hdisj⟩ := List.nodup_append.mp hnodup
  have hlast : us.getLastD a ∉ m :: (ms ++ vs) := by
    intro hmem
    exact hdisj _ (getLastD_mem_cons us a) _ hmem rfl
  cases vs with
  | nil =>
    rw [List.append_nil] at hrest hlast ⊢
    exact ⟨hus.redirect hfirst, b, hrest.write hlast⟩
  | cons v vs =>
    obtain ⟨hms, hvs⟩ := seg_append_cons.mp hrest
    rw [← List.cons_append, List.mem_append, not_or] at hlast
    exact ⟨seg_append_cons.mpr ⟨hus.redirect hfirst, hvs.write hlast.2⟩, v, hms.write hlast.1⟩

/-- The cells from `m` to the last one of `ms` are put in front. -/
theorem Seg.putIn {m e : α} {ms vs : List α} (h : Seg next a vs b) (hm : Seg next m ms e)
    (hnodup : (a :: m :: (ms ++ vs)).Nodup) :
    Seg (Function.update (Function.update next (ms.getLastD m) (next a)) a m) a (m :: (ms ++ vs))
      b := by
  obtain ⟨ha, hnodup⟩ := List.nodup_cons.mp hnodup
  rw [← List.cons_append] at ha hnodup
  obtain ⟨hfirst, -, hdisj⟩ := List.nodup_append.mp hnodup
  refine ⟨Function.update_self .., ?_⟩
  cases vs with
  | nil =>
    rw [List.append_nil] at ha ⊢
    have hend : next a = b := h
    rw [hend]
    exact (hm.redirect hfirst).write ha
  | cons v vs =>
    obtain ⟨hav, hvs⟩ := h
    have hlast : ms.getLastD m ∉ v :: vs := by
      intro hmem
      exact hdisj _ (getLastD_mem_cons ms m) _ hmem rfl
    rw [hav]
    refine seg_append_cons.mpr ⟨(hm.redirect hfirst).write fun hmem => ha ?_,
      (hvs.write hlast).write fun hmem => ha ?_⟩
    · exact List.mem_append_left _ hmem
    · exact List.mem_append_right _ hmem

/-- The cells from `m` to the last one of `ms` are moved from one segment to the front of another
one. -/
theorem Seg.splice {m d : α} {us ms vs ws : List α} (h : Seg next a (us ++ m :: (ms ++ vs)) b)
    (hc : Seg next c ws d) (hnodup : (a :: (us ++ m :: (ms ++ vs)) ++ c :: ws).Nodup)
    (hcut : next' = Function.update next (us.getLastD a) (next (ms.getLastD m))) :
    Seg (Function.update (Function.update next' (ms.getLastD m) (next' c)) c
        (next (us.getLastD a))) a (us ++ vs) b ∧
      Seg (Function.update (Function.update next' (ms.getLastD m) (next' c)) c
        (next (us.getLastD a))) c (m :: (ms ++ ws)) d := by
  obtain ⟨hsrc, hdst, hdisj⟩ := List.nodup_append.mp hnodup
  have hfirst : next (us.getLastD a) = m := h.next_getLastD
  have hbefore : us.getLastD a ∈ a :: (us ++ m :: (ms ++ vs)) :=
    List.cons_subset_cons a (List.subset_append_left us _) (getLastD_mem_cons us a)
  obtain ⟨hkept, e, hmoved⟩ := h.cutOut hsrc
  have hother := hc.write (x := next (ms.getLastD m)) fun hmem => hdisj _ hbefore _ hmem rfl
  rw [← hcut] at hkept hmoved hother
  rw [hfirst]
  constructor
  · have hlast := getLastD_mem_cons ms m
    refine (hkept.write fun hmem => ?_).write fun hmem => ?_
    · grind
    · grind
  · refine hother.putIn hmoved ?_
    grind

end Update
end Chain

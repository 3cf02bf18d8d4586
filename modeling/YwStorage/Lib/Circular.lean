import Mathlib

/-! Circular doubly linked lists in a memory of nodes, each around a head of its own. -/
namespace Circular

variable {α : Type*}

/-- The links of all nodes. -/
structure Links (α : Type*) where
  next : α → α
  prev : α → α

namespace Links
variable [DecidableEq α] (L : Links α)

def link (u v : α) : Links α :=
  ⟨Function.update L.next u v, Function.update L.prev v u⟩

def attach (hd x : α) : Links α := (L.link x (L.next hd)).link hd x

def detach (x : α) : Links α := L.link (L.prev x) (L.next x)

def pop (hd : α) : Option α × Links α :=
  if L.next hd = hd then (none, L) else (some (L.next hd), L.detach (L.next hd))

/-- Moves the nodes from `first` to `last` behind `hd`. -/
def bring (hd first last : α) : Links α :=
  let beforeHead := L.prev first
  let afterTail := L.next last
  ((L.link last (L.next hd)).link hd first).link beforeHead afterTail

end Links

/-- `a` and `b` point at each other. -/
def Linked (L : Links α) (a b : α) : Prop := L.next a = b ∧ L.prev b = a

/-- From `a` through `l` to `b`. -/
def Seg (L : Links α) : α → List α → α → Prop
  | a, [], b => Linked L a b
  | a, x :: l, b => Linked L a x ∧ Seg L x l b

/-- A segment without its first link. -/
def Rest (L : Links α) (b : α) : List α → Prop
  | [] => True
  | x :: l => Seg L x l b

/-- The circular list of `l` around `hd`. -/
def Ring (L : Links α) (hd : α) (l : List α) : Prop := Seg L hd l hd

variable {L : Links α} {a b hd hd' u v x : α} {l m r : List α}

theorem seg_iff : Seg L a l b ↔ Linked L a (l.headD b) ∧ Rest L b l := by
  cases l with
  | nil => simp [Seg, Rest]
  | cons x l => rfl

theorem seg_append : Seg L a (m ++ x :: r) b ↔ Seg L a m x ∧ Seg L x r b := by
  induction m generalizing a with
  | nil => rfl
  | cons y m ih => simp only [List.cons_append, Seg, ih, and_assoc]

/-- The node before the end is the last one of the segment. -/
theorem Seg.prev_mem (h : Seg L a l b) : L.prev b ∈ a :: l := by
  induction l generalizing a with
  | nil =>
    rw [h.2]
    exact List.mem_cons_self
  | cons x l ih => exact List.mem_cons_of_mem a (ih h.2)

section Update
variable [DecidableEq α]

theorem linked_link (L : Links α) (u v : α) : Linked (L.link u v) u v :=
  ⟨Function.update_self .., Function.update_self ..⟩

theorem Linked.link (h : Linked L a b) (hu : u ≠ a) (hv : v ≠ b) : Linked (L.link u v) a b :=
  ⟨(Function.update_of_ne hu.symm ..).trans h.1, (Function.update_of_ne hv.symm ..).trans h.2⟩

theorem Seg.link (h : Seg L a l b) (hu : u ∉ a :: l) (hv : v ∉ l ++ [b]) :
    Seg (L.link u v) a l b := by
  induction l generalizing a with
  | nil => exact Linked.link h (by simpa using hu) (by simpa using hv)
  | cons x l ih =>
    rw [List.mem_cons, not_or] at hu
    rw [List.cons_append, List.mem_cons, not_or] at hv
    exact ⟨h.1.link hu.1 hv.1, ih h.2 hu.2 hv.2⟩

/-- A segment without its first link survives a write at its first node from elsewhere. -/
theorem Rest.link (h : Rest L b l) (hnodup : (b :: l).Nodup) (hu : u ∉ l)
    (hv : v ∉ b :: l ∨ v = l.headD b) : Rest (L.link u v) b l := by
  cases l with
  | nil => trivial
  | cons x l =>
    refine Seg.link h hu ?_
    simp only [List.nodup_cons, List.mem_cons, not_or] at hnodup
    rw [List.mem_append, List.mem_singleton, not_or]
    rcases hv with hv | rfl
    · simp only [List.mem_cons, not_or] at hv
      exact ⟨hv.2.2, hv.1⟩
    · exact ⟨hnodup.2.1, fun heq => hnodup.1.1 heq.symm⟩

theorem Ring.link (h : Ring L hd l) (hu : u ∉ hd :: l) (hv : v ∉ hd :: l) :
    Ring (L.link u v) hd l := by
  refine Seg.link h hu ?_
  rw [List.mem_cons, not_or] at hv
  simpa [not_or] using And.symm hv

theorem Ring.next_eq (h : Ring L hd l) : L.next hd = l.headD hd := (seg_iff.mp h).1.1

theorem headD_mem (hd : α) (l : List α) : l.headD hd ∈ hd :: l := by
  cases l <;> simp

theorem Ring.attach (h : Ring L hd l) (hnodup : (hd :: l).Nodup) (hx : x ∉ hd :: l) :
    Ring (L.attach hd x) hd (x :: l) := by
  have hrest := (seg_iff.mp h).2
  have hhd : hd ∉ l := (List.nodup_cons.mp hnodup).1
  have hxl : x ∉ l := fun hmem => hx (List.mem_cons_of_mem hd hmem)
  have hne : x ≠ l.headD hd := fun heq => hx (heq ▸ headD_mem hd l)
  rw [Links.attach, h.next_eq]
  refine ⟨linked_link _ _ _, seg_iff.mpr ⟨(linked_link _ _ _).link ?_ hne, ?_⟩⟩
  · rintro rfl
    exact hx List.mem_cons_self
  · exact (hrest.link hnodup hxl (.inr rfl)).link hnodup hhd (.inl hx)

/-- Lists elsewhere are not affected. -/
theorem Ring.attach_frame (h : Ring L hd l) (hx : x ∉ hd' :: r)
    (hdisjoint : ∀ y ∈ hd :: l, y ∉ hd' :: r) (hother : Ring L hd' r) :
    Ring (L.attach hd x) hd' r := by
  rw [Links.attach, h.next_eq]
  exact (hother.link hx (hdisjoint _ (headD_mem hd l))).link
    (hdisjoint hd List.mem_cons_self) hx

theorem Ring.pop_nil (h : Ring L hd []) : L.pop hd = (none, L) := if_pos h.1

theorem Ring.pop_cons (h : Ring L hd (x :: l)) (hnodup : (hd :: x :: l).Nodup) :
    L.pop hd = (some x, L.link hd (l.headD hd)) := by
  have hne : L.next hd ≠ hd := by
    rw [h.1.1]
    rintro rfl
    exact (List.nodup_cons.mp hnodup).1 List.mem_cons_self
  rw [Links.pop, if_neg hne, h.1.1, Links.detach, h.1.2, (seg_iff.mp h.2).1.1]

theorem Ring.pop_ring (h : Ring L hd (x :: l)) (hnodup : (hd :: x :: l).Nodup) :
    Ring (L.pop hd).2 hd l := by
  have hnodup' : (hd :: l).Nodup := hnodup.sublist ((List.sublist_cons_self x l).cons_cons hd)
  rw [h.pop_cons hnodup]
  refine seg_iff.mpr ⟨linked_link _ _ _, ?_⟩
  exact (seg_iff.mp h.2).2.link hnodup' (List.nodup_cons.mp hnodup').1 (.inr rfl)

theorem Ring.pop_frame (h : Ring L hd (x :: l)) (hnodup : (hd :: x :: l).Nodup)
    (hdisjoint : ∀ y ∈ hd :: x :: l, y ∉ hd' :: r) (hother : Ring L hd' r) :
    Ring (L.pop hd).2 hd' r := by
  rw [h.pop_cons hnodup]
  refine hother.link (hdisjoint hd List.mem_cons_self) (hdisjoint _ ?_)
  rcases List.mem_cons.mp (headD_mem hd l) with heq | hmem
  · rw [heq]
    exact List.mem_cons_self
  · exact List.mem_cons_of_mem _ (List.mem_cons_of_mem _ hmem)

section Bring
variable {last : α}

theorem nodup_three {l₁ l₂ l₃ : List α} (h : (l₁ ++ l₂ ++ l₃).Nodup) :
    l₁.Nodup ∧ l₂.Nodup ∧ l₃.Nodup ∧ (∀ x ∈ l₁, x ∉ l₂ ∧ x ∉ l₃) ∧ (∀ x ∈ l₂, x ∉ l₁ ∧ x ∉ l₃) ∧
      ∀ x ∈ l₃, x ∉ l₁ ∧ x ∉ l₂ := by
  obtain ⟨h₁₂, h₃, hne⟩ := List.nodup_append.mp h
  obtain ⟨h₁, h₂, hne'⟩ := List.nodup_append.mp h₁₂
  have h₁₃ : ∀ x ∈ l₁, x ∉ l₃ := fun x hx hx' => hne x (List.mem_append_left _ hx) x hx' rfl
  have h₂₃ : ∀ x ∈ l₂, x ∉ l₃ := fun x hx hx' => hne x (List.mem_append_right _ hx) x hx' rfl
  have h₁₂ : ∀ x ∈ l₁, x ∉ l₂ := fun x hx hx' => hne' x hx x hx' rfl
  exact ⟨h₁, h₂, h₃, fun x hx => ⟨h₁₂ x hx, h₁₃ x hx⟩,
    fun x hx => ⟨fun hx' => h₁₂ x hx' hx, h₂₃ x hx⟩,
    fun x hx => ⟨fun hx' => h₁₃ x hx' hx, fun hx' => h₂₃ x hx' hx⟩⟩

/-- The three links that `bring` writes. -/
theorem Ring.bring_eq (h : Ring L hd l) (hown : Ring L hd' (m ++ last :: r)) :
    L.bring hd (m.headD last) last =
      ((L.link last (l.headD hd)).link hd (m.headD last)).link hd' (r.headD hd') := by
  obtain ⟨hfront, hback⟩ := seg_append.mp hown
  rw [Links.bring, h.next_eq, (seg_iff.mp hfront).1.2, (seg_iff.mp hback).1.1]

theorem Ring.bring_rings (h : Ring L hd l) (hown : Ring L hd' (m ++ last :: r))
    (hnodup : ((hd :: l) ++ (last :: m) ++ (hd' :: r)).Nodup) :
    Ring (L.bring hd (m.headD last) last) hd (m ++ last :: l) ∧
      Ring (L.bring hd (m.headD last) last) hd' r := by
  obtain ⟨hfront, hback⟩ := seg_append.mp hown
  rw [h.bring_eq hown]
  obtain ⟨hnodup₁, hnodup₂, hnodup₃, hout₁, hout₂, hout₃⟩ := nodup_three hnodup
  have hhd := (List.nodup_cons.mp hnodup₁).1
  have hlast := (List.nodup_cons.mp hnodup₂).1
  have hhd' := (List.nodup_cons.mp hnodup₃).1
  obtain ⟨hl₂, hl₃⟩ := hout₁ _ (headD_mem hd l)
  obtain ⟨hm₁, hm₃⟩ := hout₂ _ (headD_mem last m)
  obtain ⟨hr₁, hr₂⟩ := hout₃ _ (headD_mem hd' r)
  obtain ⟨hhd₂, hhd₃⟩ := hout₁ hd List.mem_cons_self
  obtain ⟨hlast₁, hlast₃⟩ := hout₂ last List.mem_cons_self
  obtain ⟨hhd'₁, hhd'₂⟩ := hout₃ hd' List.mem_cons_self
  have hne {y z : α} {n : List α} (hy : y ∉ z :: n) : y ≠ z := fun heq =>
    hy (heq ▸ List.mem_cons_self)
  have htail {y z : α} {n : List α} (hy : y ∉ z :: n) : y ∉ n := fun hmem =>
    hy (List.mem_cons_of_mem z hmem)
  -- the list that receives, the nodes that move and the list that gives, under each write
  have hrest₁ : Rest (((L.link last (l.headD hd)).link hd (m.headD last)).link hd' (r.headD hd'))
      hd l :=
    (((seg_iff.mp h).2.link hnodup₁ (htail hlast₁) (.inr rfl)).link hnodup₁ hhd (.inl hm₁)).link
      hnodup₁ (htail hhd'₁) (.inl hr₁)
  have hrest₂ : Rest (((L.link last (l.headD hd)).link hd (m.headD last)).link hd' (r.headD hd'))
      last m :=
    (((seg_iff.mp hfront).2.link hnodup₂ hlast (.inl hl₂)).link hnodup₂ (htail hhd₂)
      (.inr rfl)).link hnodup₂ (htail hhd'₂) (.inl hr₂)
  have hrest₃ : Rest (((L.link last (l.headD hd)).link hd (m.headD last)).link hd' (r.headD hd'))
      hd' r :=
    (((seg_iff.mp hback).2.link hnodup₃ (htail hlast₃) (.inl hl₃)).link hnodup₃ (htail hhd₃)
      (.inl hm₃)).link hnodup₃ hhd' (.inr rfl)
  refine ⟨seg_append.mpr ⟨seg_iff.mpr ⟨?_, hrest₂⟩, seg_iff.mpr ⟨?_, hrest₁⟩⟩,
    seg_iff.mpr ⟨linked_link _ _ _, hrest₃⟩⟩
  · refine (linked_link _ _ _).link (hne hhd'₁) ?_
    intro heq
    exact hr₂ (heq ▸ headD_mem last m)
  · refine ((linked_link _ _ _).link (hne hhd₂) ?_).link (hne hhd'₂) ?_
    · intro heq
      exact hm₁ (heq ▸ headD_mem hd l)
    · intro heq
      exact hr₁ (heq ▸ headD_mem hd l)

theorem Ring.bring_frame (h : Ring L hd l) (hown : Ring L hd' (m ++ last :: r)) {k : α}
    {n : List α} (hother : Ring L k n)
    (hdisjoint : ∀ y ∈ (hd :: l) ++ (last :: m) ++ (hd' :: r), y ∉ k :: n) :
    Ring (L.bring hd (m.headD last) last) k n := by
  rw [h.bring_eq hown]
  have hout₁ : ∀ y ∈ hd :: l, y ∉ k :: n := fun y hy =>
    hdisjoint y (List.mem_append_left _ (List.mem_append_left _ hy))
  have hout₂ : ∀ y ∈ last :: m, y ∉ k :: n := fun y hy =>
    hdisjoint y (List.mem_append_left _ (List.mem_append_right _ hy))
  have hout₃ : ∀ y ∈ hd' :: r, y ∉ k :: n := fun y hy =>
    hdisjoint y (List.mem_append_right _ hy)
  exact ((hother.link (hout₂ _ List.mem_cons_self) (hout₁ _ (headD_mem hd l))).link
    (hout₁ _ List.mem_cons_self) (hout₂ _ (headD_mem last m))).link
    (hout₃ _ List.mem_cons_self) (hout₃ _ (headD_mem hd' r))

end Bring
end Update

section Walk
variable [DecidableEq α] (L) (hd)

/-- Walks on for at most `n` nodes, but not beyond the last one of the list around `hd`; also counts
the nodes. -/
def walk : ℕ → ℕ → α → α × ℕ
  | 0, i, tail => (tail, i)
  | n + 1, i, tail => if tail = L.prev hd then (tail, i) else walk n (i + 1) (L.next tail)

/-- Counts the nodes up to `hd`; `none` when it is not met within the fuel. -/
def count : ℕ → ℕ → α → Option ℕ
  | 0, _, _ => none
  | fuel + 1, i, iter => if iter = hd then some i else count fuel (i + 1) (L.next iter)

variable {L} {hd}

theorem walk_seg {n i : ℕ} {tail : α} (h : Seg L tail r hd) (htail : tail ∉ r) (hnodup : r.Nodup) :
    walk L hd n i tail = ((r.take n).getLastD tail, i + min n r.length) := by
  induction n generalizing i tail r with
  | zero => simp [walk]
  | succ n ih =>
    rw [walk]
    cases r with
    | nil =>
      rw [if_pos h.2.symm]
      simp
    | cons x r =>
      have hne : tail ≠ L.prev hd := by
        rintro rfl
        exact htail h.2.prev_mem
      rw [if_neg hne, h.1.1, ih h.2 (List.nodup_cons.mp hnodup).1 (List.nodup_cons.mp hnodup).2,
        List.take_succ_cons, List.getLastD_cons, List.length_cons, Nat.add_min_add_right,
        Nat.add_assoc, Nat.add_comm 1]

theorem count_seg {fuel i : ℕ} {a : α} (h : Seg L a l hd) (hhd : hd ∉ l)
    (hfuel : l.length < fuel) : count L hd fuel i (L.next a) = some (i + l.length) := by
  induction l generalizing a fuel i with
  | nil =>
    obtain ⟨fuel, rfl⟩ := Nat.exists_eq_succ_of_ne_zero (Nat.ne_of_gt hfuel)
    rw [h.1, count, if_pos rfl]
    rfl
  | cons x l ih =>
    obtain ⟨fuel, rfl⟩ := Nat.exists_eq_succ_of_ne_zero (Nat.ne_zero_of_lt hfuel)
    rw [List.mem_cons, not_or] at hhd
    rw [h.1.1, count, if_neg (Ne.symm hhd.1), ih h.2 hhd.2 (by simpa using hfuel)]
    simp
    omega

end Walk
end Circular

import YwStorage.Pool.Basic

/-! What the pool's operations do to its lists. -/
namespace YwStorage.Pool
open Circular

variable {α : Type}

/-- No object is in the lists twice. -/
structure Spread (ls : ℕ → List α) : Prop where
  nodup : ∀ i, (ls i).Nodup
  unique : ∀ o i j, o ∈ ls i → o ∈ ls j → i = j

/-- The first `n` objects of list `own` move to the front of list `i`. -/
def moved (ls : ℕ → List α) (i own n : ℕ) : ℕ → List α :=
  Function.update (Function.update ls i ((ls own).take n ++ ls i)) own ((ls own).drop n)

theorem mem_moved {ls : ℕ → List α} {i own n k : ℕ} {o : α} (hne : i ≠ own)
    (h : o ∈ moved ls i own n k) :
    (k = i ∧ o ∈ (ls own).take n ++ ls i) ∨ (k = own ∧ o ∈ (ls own).drop n) ∨
      (k ≠ i ∧ k ≠ own ∧ o ∈ ls k) := by
  by_cases hown : k = own
  · subst hown
    rw [moved, Function.update_self] at h
    exact .inr (.inl ⟨rfl, h⟩)
  · rw [moved, Function.update_of_ne hown] at h
    by_cases hi : k = i
    · subst hi
      rw [Function.update_self] at h
      exact .inl ⟨rfl, h⟩
    · rw [Function.update_of_ne hi] at h
      exact .inr (.inr ⟨hi, hown, h⟩)

theorem exists_mem_moved {ls : ℕ → List α} {i own n : ℕ} (hne : i ≠ own) (o : α) :
    (∃ k, o ∈ moved ls i own n k) ↔ ∃ k, o ∈ ls k := by
  constructor
  · rintro ⟨k, hk⟩
    rcases mem_moved hne hk with ⟨-, ho⟩ | ⟨-, ho⟩ | ⟨-, -, ho⟩
    · rcases List.mem_append.mp ho with ho | ho
      · exact ⟨own, List.mem_of_mem_take ho⟩
      · exact ⟨i, ho⟩
    · exact ⟨own, List.mem_of_mem_drop ho⟩
    · exact ⟨k, ho⟩
  · rintro ⟨k, hk⟩
    by_cases hown : k = own
    · subst hown
      rw [← List.take_append_drop n (ls k), List.mem_append] at hk
      rcases hk with hk | hk
      · refine ⟨i, ?_⟩
        rw [moved, Function.update_of_ne hne, Function.update_self]
        exact List.mem_append_left _ hk
      · refine ⟨k, ?_⟩
        rw [moved, Function.update_self]
        exact hk
    · by_cases hi : k = i
      · subst hi
        refine ⟨k, ?_⟩
        rw [moved, Function.update_of_ne hown, Function.update_self]
        exact List.mem_append_right _ hk
      · refine ⟨k, ?_⟩
        rw [moved, Function.update_of_ne hown, Function.update_of_ne hi]
        exact hk

namespace Spread
variable {ls : ℕ → List α} (h : Spread ls)
include h

theorem push {o : α} (ho : ∀ j, o ∉ ls j) (i : ℕ) : Spread (Function.update ls i (o :: ls i)) := by
  have hmem : ∀ k a, a ∈ Function.update ls i (o :: ls i) k → (k = i ∧ a = o) ∨ a ∈ ls k := by
    intro k a ha
    by_cases hk : k = i
    · subst hk
      rw [Function.update_self, List.mem_cons] at ha
      exact ha.imp_left fun heq => ⟨rfl, heq⟩
    · rw [Function.update_of_ne hk] at ha
      exact .inr ha
  constructor
  · intro k
    by_cases hk : k = i
    · subst hk
      rw [Function.update_self]
      exact List.nodup_cons.mpr ⟨ho k, h.nodup k⟩
    · rw [Function.update_of_ne hk]
      exact h.nodup k
  · intro a j k hj hk
    rcases hmem j a hj with ⟨rfl, rfl⟩ | hj'
    · rcases hmem k a hk with ⟨rfl, -⟩ | hk'
      · rfl
      · exact absurd hk' (ho k)
    · rcases hmem k a hk with ⟨rfl, rfl⟩ | hk'
      · exact absurd hj' (ho j)
      · exact h.unique a j k hj' hk'

theorem pop {i : ℕ} {o : α} {l : List α} (hl : ls i = o :: l) :
    Spread (Function.update ls i l) := by
  have hsub : ∀ k, (Function.update ls i l k).Sublist (ls k) := by
    intro k
    by_cases hk : k = i
    · subst hk
      rw [Function.update_self, hl]
      exact List.sublist_cons_self o l
    · rw [Function.update_of_ne hk]
  exact ⟨fun k => (h.nodup k).sublist (hsub k),
    fun a j k hj hk => h.unique a j k ((hsub j).subset hj) ((hsub k).subset hk)⟩

theorem move {i own : ℕ} (hne : i ≠ own) (n : ℕ) : Spread (moved ls i own n) := by
  have hsplit : ((ls own).take n ++ (ls own).drop n).Nodup := by
    rw [List.take_append_drop]
    exact h.nodup own
  obtain ⟨htake, hdrop, hapart⟩ := List.nodup_append.mp hsplit
  constructor
  · intro k
    by_cases hown : k = own
    · subst hown
      rw [moved, Function.update_self]
      exact hdrop
    · rw [moved, Function.update_of_ne hown]
      by_cases hi : k = i
      · subst hi
        rw [Function.update_self]
        refine List.nodup_append.mpr ⟨htake, h.nodup k, ?_⟩
        rintro a ha b hb rfl
        exact hne (h.unique a k own hb (List.mem_of_mem_take ha))
      · rw [Function.update_of_ne hi]
        exact h.nodup k
  · -- an object of `own` goes with its part, every other one stays
    have hplace : ∀ o k, o ∈ moved ls i own n k →
        (o ∈ ls own ∧ ((k = i ∧ o ∈ (ls own).take n) ∨ (k = own ∧ o ∈ (ls own).drop n))) ∨
          (o ∉ ls own ∧ o ∈ ls k) := by
      intro o k hk
      rcases mem_moved hne hk with ⟨rfl, ho⟩ | ⟨rfl, ho⟩ | ⟨-, hown, ho⟩
      · rcases List.mem_append.mp ho with ho | ho
        · exact .inl ⟨List.mem_of_mem_take ho, .inl ⟨rfl, ho⟩⟩
        · exact .inr ⟨fun ho' => hne (h.unique o k own ho ho'), ho⟩
      · exact .inl ⟨List.mem_of_mem_drop ho, .inr ⟨rfl, ho⟩⟩
      · exact .inr ⟨fun ho' => hown (h.unique o k own ho ho'), ho⟩
    intro o j k hj hk
    rcases hplace o j hj with ⟨hown, hj₁ | hj₁⟩ | ⟨hout, hj₁⟩ <;>
      rcases hplace o k hk with ⟨hown', hk₁ | hk₁⟩ | ⟨hout', hk₁⟩
    · exact hj₁.1.trans hk₁.1.symm
    · exact absurd rfl (hapart o hj₁.2 o hk₁.2)
    · exact absurd hown hout'
    · exact absurd rfl (hapart o hk₁.2 o hj₁.2)
    · exact hj₁.1.trans hk₁.1.symm
    · exact absurd hown hout'
    · exact absurd hown' hout
    · exact absurd hown' hout
    · exact h.unique o j k hj₁ hk₁

end Spread

/-- The pool holds the list `ls i` in slot `i`. -/
structure Holds (s : Pool α) (ls : ℕ → List α) : Prop where
  ring : ∀ i, Ring s.links (.slot i) ((ls i).map .obj)
  count : ∀ i, s.count i = (ls i).length
  spread : Spread ls

theorem holds_create : Holds (create : Pool α) fun _ => [] := by
  refine ⟨fun i => ⟨rfl, rfl⟩, fun i => rfl, fun i => List.nodup_nil, ?_⟩
  intro o i j ho
  cases ho

namespace Holds
variable {s : Pool α} {ls : ℕ → List α}

theorem nodup_ring (h : Holds s ls) (i : ℕ) : (Addr.slot i :: (ls i).map .obj).Nodup := by
  refine List.nodup_cons.mpr ⟨by simp, (h.spread.nodup i).map ?_⟩
  intro a b heq
  exact Addr.obj.inj heq

/-- Two slots have no node in common. -/
theorem apart (h : Holds s ls) {i j : ℕ} (hij : i ≠ j) :
    ∀ x ∈ Addr.slot i :: (ls i).map .obj, x ∉ Addr.slot j :: (ls j).map .obj := by
  intro x hx
  rcases List.mem_cons.mp hx with rfl | hx
  · simpa using hij
  · obtain ⟨o, ho, rfl⟩ := List.mem_map.mp hx
    have : o ∉ ls j := fun ho' => hij (h.spread.unique o i j ho ho')
    simpa using this

variable [DecidableEq α]

theorem slotPush (h : Holds s ls) (i : ℕ) {o : α} (ho : ∀ j, o ∉ ls j) :
    Holds (s.slotPush i (.obj o)) (Function.update ls i (o :: ls i)) := by
  have hnew : ∀ j, Addr.obj o ∉ Addr.slot j :: (ls j).map .obj := by
    intro j
    simpa using ho j
  refine ⟨fun j => ?_, fun j => ?_, h.spread.push ho i⟩
  · by_cases hj : j = i
    · subst hj
      rw [Function.update_self]
      exact (h.ring j).attach (h.nodup_ring j) (hnew j)
    · rw [Function.update_of_ne hj]
      exact (h.ring i).attach_frame (hnew j) (h.apart (Ne.symm hj)) (h.ring j)
  · by_cases hj : j = i
    · subst hj
      simp [Pool.slotPush, h.count]
    · simp [Pool.slotPush, Function.update_of_ne hj, h.count]

theorem slotPop_nil (h : Holds s ls) {i : ℕ} (hl : ls i = []) : s.slotPop i = some (none, s) := by
  have hring := h.ring i
  rw [hl] at hring
  rw [Pool.slotPop, hring.pop_nil]

theorem slotPop_cons (h : Holds s ls) {i : ℕ} {o : α} {l : List α} (hl : ls i = o :: l) :
    ∃ t, s.slotPop i = some (some (.obj o), t) ∧ Holds t (Function.update ls i l) := by
  have hring := h.ring i
  have hnodup := h.nodup_ring i
  have hcount := h.count i
  rw [hl] at hring hnodup hcount
  rw [List.map_cons] at hring hnodup
  refine ⟨⟨(s.links.pop (.slot i)).2, Function.update s.count i (s.count i - 1)⟩, ?_, ?_⟩
  · have hpos : s.count i > 0 := by
      rw [hcount, List.length_cons]
      omega
    rw [Pool.slotPop, hring.pop_cons hnodup]
    exact if_pos hpos
  · refine ⟨fun j => ?_, fun j => ?_, h.spread.pop hl⟩
    · by_cases hj : j = i
      · subst hj
        rw [Function.update_self]
        exact hring.pop_ring hnodup
      · rw [Function.update_of_ne hj]
        refine hring.pop_frame hnodup ?_ (h.ring j)
        have := h.apart (Ne.symm hj)
        rwa [hl] at this
    · by_cases hj : j = i
      · subst hj
        simp [hcount]
      · simp [Function.update_of_ne hj, h.count]

/-- The nodes that leave `own` are the first of its list. -/
theorem walk_eq (h : Holds s ls) (own n : ℕ) :
    walk s.links (.slot own) n 0 (.slot own) =
      ((((ls own).take n).map .obj).getLastD (.slot own), ((ls own).take n).length) := by
  rw [walk_seg (h.ring own) (by simp) (List.nodup_cons.mp (h.nodup_ring own)).2]
  simp [List.map_take]

omit [DecidableEq α] in
theorem moved_nil {i own n : ℕ} (hnil : (ls own).take n = []) : moved ls i own n = ls := by
  have hdrop : (ls own).drop n = ls own := by
    have := List.take_append_drop n (ls own)
    rwa [hnil, List.nil_append] at this
  rw [moved, hnil, hdrop, List.nil_append, Function.update_eq_self]
  exact Function.update_eq_self _ _

theorem slotBring (h : Holds s ls) {i own : ℕ} (hne : i ≠ own) (n : ℕ) :
    Holds (s.slotBring i own (s.links.next (.slot own))
      (walk s.links (.slot own) n 0 (.slot own)).1 (walk s.links (.slot own) n 0 (.slot own)).2)
      (moved ls i own n) := by
  rw [h.walk_eq]
  rcases List.eq_nil_or_concat ((ls own).take n) with hnil | ⟨m, last, hm⟩
  · rw [moved_nil hnil, hnil]
    exact h
  have hsplit : ls own = m ++ last :: (ls own).drop n := by
    conv_lhs => rw [← List.take_append_drop n (ls own), hm]
    simp
  have hown := h.ring own
  rw [hsplit, List.map_append, List.map_cons] at hown
  have hhead : s.links.next (.slot own) = (m.map .obj).headD (.obj last) := by
    rw [hown.next_eq]
    cases m <;> rfl
  have hlast : (((ls own).take n).map Addr.obj).getLastD (.slot own) = .obj last := by
    rw [hm, List.concat_eq_append, List.map_append]
    simp
  have hperm : (Addr.slot own :: (ls own).map .obj).Perm
      ((Addr.obj last :: m.map .obj) ++ (Addr.slot own :: ((ls own).drop n).map .obj)) := by
    conv_lhs => rw [hsplit, List.map_append, List.map_cons]
    exact ((List.perm_middle.cons _).trans (List.Perm.swap _ _ _)).trans
      (List.perm_middle.symm.cons _)
  have hparts : ((Addr.slot i :: (ls i).map Addr.obj) ++ (Addr.obj last :: m.map Addr.obj) ++
      (Addr.slot own :: ((ls own).drop n).map Addr.obj)).Nodup := by
    rw [List.append_assoc]
    refine ((hperm.append_left _).nodup_iff).mp (List.nodup_append.mpr
      ⟨h.nodup_ring i, h.nodup_ring own, ?_⟩)
    rintro x hx y hy rfl
    exact h.apart hne x hx hy
  have hpos : (((ls own).take n).length : ℤ) ≠ 0 := by
    rw [hm]
    simp
    omega
  rw [hhead, hlast, Pool.slotBring, if_pos hpos]
  obtain ⟨hring, hring'⟩ := (h.ring i).bring_rings hown hparts
  refine ⟨fun j => ?_, fun j => ?_, h.spread.move hne n⟩
  · by_cases hjown : j = own
    · subst hjown
      rw [moved, Function.update_self]
      exact hring'
    · rw [moved, Function.update_of_ne hjown]
      by_cases hji : j = i
      · subst hji
        rw [Function.update_self, hm, List.concat_eq_append, List.append_assoc, List.map_append,
          List.map_append]
        exact hring
      · rw [Function.update_of_ne hji]
        refine (h.ring i).bring_frame hown (h.ring j) ?_
        intro y hy
        rw [List.append_assoc, List.mem_append] at hy
        rcases hy with hy | hy
        · exact h.apart (Ne.symm hji) y hy
        · exact h.apart (Ne.symm hjown) y (hperm.mem_iff.mpr hy)
  · by_cases hjown : j = own
    · subst hjown
      simp only [moved, Function.update_self, Function.update_of_ne hne.symm, h.count,
        List.length_drop, List.length_take]
      omega
    · by_cases hji : j = i
      · subst hji
        simp only [moved, Function.update_self, Function.update_of_ne hjown, h.count,
          List.length_append]
        omega
      · simp only [moved, Function.update_of_ne hjown, Function.update_of_ne hji, h.count]

theorem validation (h : Holds s ls) (i : ℕ) : s.validation i = true := by
  have hcount : Circular.count s.links (.slot i) ((s.count i).toNat + 1) 0
      (s.links.next (.slot i)) = some (0 + ((ls i).map Addr.obj).length) := by
    refine count_seg (h.ring i) (by simp) ?_
    rw [h.count]
    simp
  rw [Pool.validation, hcount, h.count]
  simp

end Holds

section Calls
variable (c : Config) (ls : ℕ → List α)

/-- `push` on the lists. -/
def pushed (tid : ℕ) (o : α) : ℕ → List α :=
  if c.privateCount = 0 then Function.update ls c.sharedIdx (o :: ls c.sharedIdx)
  else
    let ls' := Function.update ls tid (o :: ls tid)
    if (ls' tid).length > c.sharingThreshold then moved ls' c.sharedIdx tid c.privateCount else ls'

def poppedAt (i : ℕ) : Option α × (ℕ → List α) :=
  match ls i with
  | [] => (none, ls)
  | o :: l => (some o, Function.update ls i l)

/-- `pop` on the lists. -/
def popped (tid : ℕ) : Option α × (ℕ → List α) :=
  if c.privateCount = 0 then poppedAt ls c.sharedIdx
  else
    match ls tid with
    | [] => poppedAt (moved ls tid c.sharedIdx c.privateCount) tid
    | o :: l => (some o, Function.update ls tid l)

theorem int32_of_lt {n : ℕ} (h : n < 2 ^ 31) : int32 n = n := by
  unfold int32
  omega

end Calls

section Members
variable {c : Config} {ls : ℕ → List α}

theorem exists_mem_update_cons {i : ℕ} {o a : α} :
    (∃ k, a ∈ Function.update ls i (o :: ls i) k) ↔ a = o ∨ ∃ k, a ∈ ls k := by
  constructor
  · rintro ⟨k, hk⟩
    by_cases hki : k = i
    · subst hki
      rw [Function.update_self, List.mem_cons] at hk
      exact hk.imp_right fun hk => ⟨k, hk⟩
    · rw [Function.update_of_ne hki] at hk
      exact .inr ⟨k, hk⟩
  · rintro (rfl | ⟨k, hk⟩)
    · exact ⟨i, by rw [Function.update_self]; exact List.mem_cons_self⟩
    · by_cases hki : k = i
      · subst hki
        exact ⟨k, by rw [Function.update_self]; exact List.mem_cons_of_mem o hk⟩
      · exact ⟨k, by rwa [Function.update_of_ne hki]⟩

theorem exists_mem_pushed {tid : ℕ} (htid : tid ≠ c.sharedIdx) {o a : α} :
    (∃ k, a ∈ pushed c ls tid o k) ↔ a = o ∨ ∃ k, a ∈ ls k := by
  unfold pushed
  split
  · exact exists_mem_update_cons
  · simp only
    split
    · rw [exists_mem_moved htid.symm]
      exact exists_mem_update_cons
    · exact exists_mem_update_cons

theorem exists_mem_update_tail (h : Spread ls) {i : ℕ} {o a : α} {l : List α} (hl : ls i = o :: l) :
    (∃ k, a ∈ Function.update ls i l k) ↔ a ≠ o ∧ ∃ k, a ∈ ls k := by
  have hnodup := h.nodup i
  have ho : o ∈ ls i := hl ▸ List.mem_cons_self
  rw [hl, List.nodup_cons] at hnodup
  constructor
  · rintro ⟨k, hk⟩
    by_cases hki : k = i
    · subst hki
      rw [Function.update_self] at hk
      refine ⟨?_, k, hl ▸ List.mem_cons_of_mem o hk⟩
      rintro rfl
      exact hnodup.1 hk
    · rw [Function.update_of_ne hki] at hk
      refine ⟨?_, k, hk⟩
      rintro rfl
      exact hki (h.unique a k i hk ho)
  · rintro ⟨hne, k, hk⟩
    by_cases hki : k = i
    · subst hki
      rw [hl, List.mem_cons] at hk
      exact ⟨k, by rw [Function.update_self]; exact hk.resolve_left hne⟩
    · exact ⟨k, by rwa [Function.update_of_ne hki]⟩

/-- Exactly the popped object leaves. -/
theorem exists_mem_poppedAt (h : Spread ls) {i : ℕ} {a : α} :
    (∃ k, a ∈ (poppedAt ls i).2 k) ↔ (poppedAt ls i).1 ≠ some a ∧ ∃ k, a ∈ ls k := by
  unfold poppedAt
  cases hl : ls i with
  | nil => simp
  | cons o l =>
    rw [exists_mem_update_tail h hl]
    exact and_congr_left fun _ =>
      not_congr ⟨fun heq => heq ▸ rfl, fun heq => (Option.some.inj heq).symm⟩

theorem exists_mem_popped (h : Spread ls) {tid : ℕ} (htid : tid ≠ c.sharedIdx) {a : α} :
    (∃ k, a ∈ (popped c ls tid).2 k) ↔ (popped c ls tid).1 ≠ some a ∧ ∃ k, a ∈ ls k := by
  unfold popped
  split
  · exact exists_mem_poppedAt h
  · cases hl : ls tid with
    | nil =>
      simp only
      rw [exists_mem_poppedAt (h.move htid _), exists_mem_moved htid]
    | cons o l =>
      simp only
      rw [exists_mem_update_tail h hl]
      exact and_congr_left fun _ => not_congr
        ⟨fun heq => heq ▸ rfl, fun heq => (Option.some.inj heq).symm⟩

theorem poppedAt_fst (ls : ℕ → List α) (i : ℕ) : (poppedAt ls i).1 = (ls i).head? := by
  unfold poppedAt
  cases ls i <;> rfl

theorem popped_mem {tid : ℕ} (htid : tid ≠ c.sharedIdx) {o : α}
    (ho : (popped c ls tid).1 = some o) : ∃ i, o ∈ ls i := by
  have hhead : ∀ (ls' : ℕ → List α) i, (poppedAt ls' i).1 = some o → o ∈ ls' i := by
    intro ls' i heq
    rw [poppedAt_fst] at heq
    exact List.mem_of_mem_head? heq
  unfold popped at ho
  split at ho
  · exact ⟨_, hhead ls _ ho⟩
  · split at ho
    · exact (exists_mem_moved htid o).mp ⟨_, hhead _ _ ho⟩
    · rename_i o' l hl
      cases ho
      exact ⟨tid, hl ▸ List.mem_cons_self⟩

theorem poppedAt_cons {i : ℕ} {o : α} {l : List α} (hl : ls i = o :: l) :
    poppedAt ls i = (some o, Function.update ls i l) := by
  unfold poppedAt
  rw [hl]

theorem mem_of_mem_poppedAt {i k : ℕ} {a : α} (h : a ∈ (poppedAt ls i).2 k) : a ∈ ls k := by
  unfold poppedAt at h
  split at h
  · exact h
  · rename_i o l hl
    by_cases hk : k = i
    · subst hk
      have h : a ∈ Function.update ls k l k := h
      rw [Function.update_self] at h
      exact hl ▸ List.mem_cons_of_mem o h
    · have h : a ∈ Function.update ls i l k := h
      rwa [Function.update_of_ne hk] at h

/-- `pop` brings nothing into the pool. -/
theorem mem_of_mem_popped {tid k : ℕ} (htid : tid ≠ c.sharedIdx) {a : α}
    (h : a ∈ (popped c ls tid).2 k) : ∃ i, a ∈ ls i := by
  have htail : popped c ls tid = poppedAt ls tid ∨ popped c ls tid = poppedAt ls c.sharedIdx ∨
      popped c ls tid = poppedAt (moved ls tid c.sharedIdx c.privateCount) tid := by
    unfold popped
    split
    · exact .inr (.inl rfl)
    · cases hl : ls tid with
      | nil => exact .inr (.inr rfl)
      | cons o l => exact .inl (poppedAt_cons hl).symm
  rcases htail with heq | heq | heq <;> rw [heq] at h
  · exact ⟨k, mem_of_mem_poppedAt h⟩
  · exact ⟨k, mem_of_mem_poppedAt h⟩
  · exact (exists_mem_moved htid a).mp ⟨k, mem_of_mem_poppedAt h⟩

/-- `pop` fails only when both lists are empty. -/
theorem popped_fst {tid : ℕ} (htid : tid < c.sharedIdx)
    (hprivate : c.privateCount = 0 → ls tid = []) :
    (popped c ls tid).1 = none ↔ ls tid = [] ∧ ls c.sharedIdx = [] := by
  unfold popped
  split
  · rename_i hzero
    rw [poppedAt_fst, List.head?_eq_none_iff]
    exact ⟨fun hnil => ⟨hprivate hzero, hnil⟩, And.right⟩
  · rename_i hzero
    cases hl : ls tid with
    | nil =>
      simp only [poppedAt_fst, List.head?_eq_none_iff, moved,
        Function.update_of_ne (Nat.ne_of_lt htid), Function.update_self, hl, List.append_nil,
        List.take_eq_nil_iff, hzero, false_or, true_and]
    | cons o l => simp

theorem moved_other {i own n k : ℕ} (hi : k ≠ i) (hown : k ≠ own) : moved ls i own n k = ls k := by
  rw [moved, Function.update_of_ne hown, Function.update_of_ne hi]

theorem pushed_other {tid k : ℕ} {o : α} (htid : k ≠ tid) (hshared : k ≠ c.sharedIdx) :
    pushed c ls tid o k = ls k := by
  unfold pushed
  split
  · exact Function.update_of_ne hshared ..
  · simp only
    split
    · exact (moved_other hshared htid).trans (Function.update_of_ne htid ..)
    · exact Function.update_of_ne htid ..

theorem poppedAt_other {i k : ℕ} (hi : k ≠ i) : (poppedAt ls i).2 k = ls k := by
  unfold poppedAt
  split
  · rfl
  · exact Function.update_of_ne hi ..

theorem popped_other {tid k : ℕ} (htid : k ≠ tid) (hshared : k ≠ c.sharedIdx) :
    (popped c ls tid).2 k = ls k := by
  unfold popped
  split
  · exact poppedAt_other hshared
  · split
    · exact (poppedAt_other htid).trans (moved_other htid hshared)
    · exact Function.update_of_ne htid ..

/-- The two lists a thread can reach. -/
def reach (c : Config) (ls : ℕ → List α) (tid : ℕ) : List α := ls tid ++ ls c.sharedIdx

variable {tid : ℕ} (htid : tid ≠ c.sharedIdx)
include htid

theorem reach_toShared (n : ℕ) :
    (reach c (moved ls c.sharedIdx tid n) tid).Perm (reach c ls tid) := by
  rw [reach, moved, Function.update_self, Function.update_of_ne htid.symm, Function.update_self,
    ← List.append_assoc]
  refine List.Perm.append_right _ (List.perm_append_comm.trans ?_)
  rw [List.take_append_drop]

theorem reach_fromShared (n : ℕ) :
    (reach c (moved ls tid c.sharedIdx n) tid).Perm (reach c ls tid) := by
  rw [reach, moved, Function.update_self, Function.update_of_ne htid, Function.update_self]
  have hcomm : ((ls c.sharedIdx).take n ++ ls tid).Perm (ls tid ++ (ls c.sharedIdx).take n) :=
    List.perm_append_comm
  refine (hcomm.append_right _).trans ?_
  rw [List.append_assoc, List.take_append_drop]
  exact .refl _

theorem reach_pushed (o : α) : (reach c (pushed c ls tid o) tid).Perm (o :: reach c ls tid) := by
  unfold pushed
  split
  · rw [reach, Function.update_self, Function.update_of_ne htid]
    exact List.perm_middle
  · have hpush : reach c (Function.update ls tid (o :: ls tid)) tid = o :: reach c ls tid := by
      rw [reach, Function.update_self, Function.update_of_ne htid.symm]
      rfl
    simp only
    split
    · rw [← hpush]
      exact reach_toShared htid _
    · rw [hpush]

theorem reach_popped : (reach c ls tid).Perm
    ((popped c ls tid).1.toList ++ reach c (popped c ls tid).2 tid) := by
  have hat : ∀ ls' : ℕ → List α, (reach c ls' tid).Perm
      ((poppedAt ls' tid).1.toList ++ reach c (poppedAt ls' tid).2 tid) := by
    intro ls'
    unfold poppedAt
    cases hl : ls' tid with
    | nil => exact .refl _
    | cons o l =>
      simp only [reach, Function.update_self, Function.update_of_ne htid.symm, hl,
        Option.toList_some]
      exact .refl _
  unfold popped
  split
  · unfold poppedAt
    cases hl : ls c.sharedIdx with
    | nil => exact .refl _
    | cons o l =>
      simp only [reach, Function.update_self, Function.update_of_ne htid, hl, Option.toList_some]
      exact List.perm_middle
  · cases hl : ls tid with
    | nil => exact (reach_fromShared htid _).symm.trans (hat _)
    | cons o l =>
      have := hat ls
      rwa [poppedAt_cons hl] at this

end Members

section Calls
variable [DecidableEq α] {c : Config} {s : Pool α} {ls : ℕ → List α}

namespace Holds

theorem moveToSharedArea (h : Holds s ls) (hc : c.privateCount < 2 ^ 31) {i : ℕ}
    (hi : i ≠ c.sharedIdx) :
    Holds (s.moveToSharedArea c i) (moved ls c.sharedIdx i c.privateCount) := by
  have hlen : (walk s.links (.slot i) c.privateCount 0 (.slot i)).2 < 2 ^ 31 := by
    rw [h.walk_eq]
    exact Nat.lt_of_le_of_lt (List.length_take_le _ _) hc
  rw [Pool.moveToSharedArea, int32_of_lt hlen]
  exact h.slotBring hi.symm _

theorem bringFromSharedArea (h : Holds s ls) (hc : c.privateCount < 2 ^ 31) {i : ℕ}
    (hi : i ≠ c.sharedIdx) :
    ∃ t, s.bringFromSharedArea c i = some t ∧ Holds t (moved ls i c.sharedIdx c.privateCount) := by
  have ht := h.slotBring hi c.privateCount
  refine ⟨_, ?_, ht⟩
  rw [Pool.bringFromSharedArea, Pool.slotBringCount, int32_of_lt hc, Int.toNat_natCast]
  exact if_pos (ht.validation i)

theorem push (h : Holds s ls) (hc : c.privateCount < 2 ^ 31) {tid : ℕ} (htid : tid ≠ c.sharedIdx)
    {o : α} (ho : ∀ j, o ∉ ls j) : Holds (s.push c tid o) (pushed c ls tid o) := by
  unfold Pool.push pushed
  by_cases hzero : c.privateCount = 0
  · rw [if_pos hzero, if_pos hzero]
    exact h.slotPush _ ho
  · have hpush := h.slotPush tid ho
    simp only [if_neg hzero, hpush.count, gt_iff_lt, Int.ofNat_lt]
    split
    · exact hpush.moveToSharedArea hc htid
    · exact hpush

theorem slotPop (h : Holds s ls) (i : ℕ) :
    ∃ t, s.slotPop i = some ((poppedAt ls i).1.map .obj, t) ∧ Holds t (poppedAt ls i).2 := by
  unfold poppedAt
  cases hl : ls i with
  | nil => exact ⟨s, h.slotPop_nil hl, h⟩
  | cons o l => exact h.slotPop_cons hl

theorem pop (h : Holds s ls) (hc : c.privateCount < 2 ^ 31) {tid : ℕ} (htid : tid ≠ c.sharedIdx) :
    ∃ t, s.pop c tid = some ((popped c ls tid).1.map .obj, t) ∧ Holds t (popped c ls tid).2 := by
  unfold Pool.pop popped
  by_cases hzero : c.privateCount = 0
  · rw [if_pos hzero, if_pos hzero]
    exact h.slotPop _
  · rw [if_neg hzero, if_neg hzero]
    cases hl : ls tid with
    | nil =>
      obtain ⟨t, ht, hmoved⟩ := h.bringFromSharedArea hc htid
      rw [h.slotPop_nil hl]
      simp only [ht, Option.bind_some]
      exact hmoved.slotPop tid
    | cons o l =>
      obtain ⟨t, ht, hpop⟩ := h.slotPop_cons hl
      rw [ht]
      exact ⟨t, rfl, hpop⟩

end Holds
end Calls
end YwStorage.Pool

import YwStorage.SkipList.SortedSet

/-! The levels of a skip list that is used as it is meant to be: a sorted set. -/
namespace YwStorage.Skip
open Chain

variable {s : SkipList} {cols A B : List Column} {c : Column} {r n m : ℕ} {k target : Key}
  {stored : Finset Key}

/-- The nodes of each level, `lvl 0` at the top. -/
structure Levels (s : SkipList) (lvl : ℕ → List Ptr) : Prop where
  chain : ∀ i < s.level, Seg s.next (.head i) (lvl i) (.tail i)
  increasing : ∀ i < s.level, ((lvl i).map s.key).Pairwise (· < ·)
  subset : ∀ i, i + 1 < s.level → (lvl i).map s.key ⊆ (lvl (i + 1)).map s.key
  down : ∀ i, i + 1 < s.level → ∀ p ∈ lvl i,
    s.down p ∈ lvl (i + 1) ∧ s.key (s.down p) = s.key p ∧ s.up (s.down p) = p
  up : ∀ i, i + 1 < s.level → ∀ p ∈ lvl (i + 1),
    (s.up p = .null ∧ s.key p ∉ (lvl i).map s.key) ∨
      (s.up p ∈ lvl i ∧ s.key (s.up p) = s.key p ∧ s.down (s.up p) = p)
  top : ∀ p ∈ lvl 0, s.up p = .null
  bottom : ∀ p ∈ lvl (s.level - 1), s.down p = .null

theorem On.below (h : On cols k (r + 1) m) : ∃ n, On cols k r n := by
  obtain ⟨c, hc, hk, hm⟩ := h
  have hlen := (List.getElem?_eq_some_iff.mp hm).1
  exact ⟨_, c, hc, hk, List.getElem?_eq_getElem (Nat.lt_of_succ_lt hlen)⟩

namespace SkipList

namespace Towers

theorem mem_keys (h : s.Towers cols) : k ∈ (lane r cols).map s.key ↔ ∃ n, On cols k r n := by
  rw [List.mem_map]
  constructor
  · rintro ⟨p, hp, rfl⟩
    obtain ⟨k, n, hon, rfl⟩ := mem_lane.mp hp
    exact ⟨n, (h.keys hon).symm ▸ hon⟩
  · rintro ⟨n, hon⟩
    exact ⟨.node n, mem_lane.mpr ⟨k, n, hon, rfl⟩, h.keys hon⟩

theorem lane_increasing (h : s.Towers cols) : ((lane r cols).map s.key).Pairwise (· < ·) := by
  refine List.pairwise_map.mpr (List.pairwise_filterMap.mpr ?_)
  refine (List.pairwise_map.mp h.sorted).imp_of_mem fun {c c'} hc hc' hlt p hp q hq => ?_
  obtain ⟨n, hn, rfl⟩ := Option.map_eq_some_iff.mp hp
  obtain ⟨m, hm, rfl⟩ := Option.map_eq_some_iff.mp hq
  rw [h.keys ⟨c, hc, rfl, hn⟩, h.keys ⟨c', hc', rfl, hm⟩]
  exact hlt

/-- Above the top level there is nothing. -/
theorem not_on_level (h : s.Towers cols) (hr : s.level ≤ r) : ¬ On cols k r n := by
  rintro ⟨c, hc, -, hn⟩
  have hlen := (List.getElem?_eq_some_iff.mp hn).1
  exact absurd (h.height c hc) (by omega)

end Towers

theorem Built.levels (h : s.Built cols) (hpos : 0 < s.level) :
    Levels s fun i => lane (s.level - 1 - i) cols := by
  have hindex : ∀ i, i + 1 < s.level → s.level - 1 - i = s.level - 1 - (i + 1) + 1 := by
    intro i hi
    omega
  refine ⟨fun i hi => h.chain hi, fun i _ => h.lane_increasing, ?_, ?_, ?_, ?_, ?_⟩
  · intro i hi k hk
    rw [hindex i hi, h.mem_keys] at hk
    obtain ⟨m, hm⟩ := hk
    exact h.mem_keys.mpr hm.below
  · intro i hi p hp
    rw [hindex i hi] at hp
    obtain ⟨k, m, hm, rfl⟩ := mem_lane.mp hp
    obtain ⟨n, hn⟩ := hm.below
    rw [h.down hn hm]
    exact ⟨mem_lane.mpr ⟨k, n, hn, rfl⟩, (h.keys hn).trans (h.keys hm).symm, h.up hn hm⟩
  · intro i hi p hp
    obtain ⟨k, n, hn, rfl⟩ := mem_lane.mp hp
    simp only [hindex i hi, h.keys hn, h.mem_keys]
    by_cases htop : ∃ m, On cols k (s.level - 1 - (i + 1) + 1) m
    · obtain ⟨m, hm⟩ := htop
      rw [h.up hn hm]
      exact Or.inr ⟨mem_lane.mpr ⟨k, m, hm, rfl⟩, h.keys hm, h.down hn hm⟩
    · exact Or.inl ⟨h.top hn (not_exists.mp htop), htop⟩
  · intro p hp
    obtain ⟨k, n, hn, rfl⟩ := mem_lane.mp hp
    exact h.top hn fun m => h.not_on_level (by omega)
  · intro p hp
    obtain ⟨k, n, hn, rfl⟩ := mem_lane.mp hp
    simp only [Nat.sub_self] at hn
    exact h.bottom hn

/-- A key is found, or the one that follows it. -/
theorem Valid.search (h : s.Valid cols) (target : Key) :
    ∃ p, Fuel.Returns (fun fuel => s.search target fuel) p ∧
      ((p ∈ lane 0 cols ∧ target ≤ s.key p ∧
          ∀ q ∈ lane 0 cols, target ≤ s.key q → s.key p ≤ s.key q) ∨
        (p = .tail (s.level - 1) ∧ ∀ q ∈ lane 0 cols, s.key q < target)) := by
  obtain ⟨A, B, rfl, hparted⟩ := exists_parted h.sorted target
  obtain ⟨history, hret, -⟩ := h.searchFrom_returns hparted h.positive
  refine ⟨s.next (s.front 0 A), hret.map, ?_⟩
  cases B with
  | nil =>
    refine Or.inr ⟨h.next_front h.positive, fun q hq => ?_⟩
    obtain ⟨k, n, hon, rfl⟩ := mem_lane.mp hq
    rw [h.keys hon]
    obtain ⟨c, hc, rfl, -⟩ := hon
    exact hparted.below c (by simpa using hc)
  | cons b B =>
    obtain ⟨n, hn, hnext, hkey⟩ := h.next_front_bottom
    have hb : b ∈ A ++ b :: B := by simp
    rw [hnext, hkey]
    refine Or.inl ⟨mem_lane.mpr ⟨_, n, ⟨b, hb, rfl, hn⟩, rfl⟩, hparted.above b (by simp), ?_⟩
    intro q hq hle
    obtain ⟨k, m, hon, rfl⟩ := mem_lane.mp hq
    rw [h.keys hon] at hle ⊢
    obtain ⟨c, hc, rfl, -⟩ := hon
    rcases List.mem_append.mp hc with hc | hc
    · exact absurd (hparted.below c hc) (not_lt.mpr hle)
    · exact h.parted.above c hc

/-- Every column has a node at the bottom. -/
theorem Valid.length_bottom (h : s.Valid cols) : (lane 0 cols).length = cols.length := by
  have hlen : ∀ cols : List Column, (∀ c ∈ cols, c.nodes ≠ []) →
      (lane 0 cols).length = cols.length := by
    intro cols hfull
    induction cols with
    | nil => rfl
    | cons c cols ih =>
      obtain ⟨n, ns, hnodes⟩ := List.exists_cons_of_ne_nil (hfull c List.mem_cons_self)
      rw [lane_cons, hnodes, List.length_append, ih fun d hd => hfull d (List.mem_cons_of_mem c hd)]
      exact Nat.add_comm ..
  exact hlen cols h.full

/-- The nodes counted by columns and by levels. -/
theorem sum_lanes {level : ℕ} (hheight : ∀ c ∈ cols, c.nodes.length ≤ level) :
    (cols.map fun c => (c.nodes.length : ℤ)).sum =
      ∑ i ∈ Finset.range level, ((lane (level - 1 - i) cols).length : ℤ) := by
  rw [Finset.sum_range_reflect fun r => ((lane r cols).length : ℤ)]
  induction cols with
  | nil => simp [lane]
  | cons c cols ih =>
    have hc := hheight c List.mem_cons_self
    have hlen : ∀ r, ((lane r (c :: cols)).length : ℤ) =
        (if r < c.nodes.length then 1 else 0) + ((lane r cols).length : ℤ) := by
      intro r
      rw [lane_cons]
      by_cases hr : r < c.nodes.length
      · simp [hr, add_comm]
      · simp [hr]
    have hfilter : (Finset.range level).filter (· < c.nodes.length) =
        Finset.range c.nodes.length := by
      ext r
      simp only [Finset.mem_filter, Finset.mem_range]
      omega
    simp only [hlen, Finset.sum_add_distrib, Finset.sum_boole, hfilter, Finset.card_range,
      List.map_cons, List.sum_cons, ih fun d hd => hheight d (List.mem_cons_of_mem c hd)]
    
end SkipList

/-- `insert` of a proper key, or `remove` of one that is stored. -/
def Call.Proper (stored : Finset Key) : Call → Prop
  | .insert k => initKey < k ∧ k < lastKey
  | .remove k => k ∈ stored

theorem Call.Proper.sound {a : Call} (h : a.Proper stored) : a.Sound stored := by
  cases a with
  | insert k => trivial
  | remove k => exact Or.inr h

theorem Call.Proper.reply {a : Call} (h : a.Proper stored) : a.reply stored = true := by
  cases a with
  | insert k => exact decide_eq_true h.1.ne'
  | remove k => exact decide_eq_true h

theorem replies_true {level : ℕ} (hpos : 0 < level) (hbound : level ≤ maxLevel)
    {xs : List (Call × Bool)} {y : SkipList × Finset Key}
    (hrun : Lts.Run (Lts.restrict Step fun x a => a.1.Proper x.2) (init level, ∅) xs y) :
    ∀ a ∈ xs, a.2 = true := by
  have hstart : (∀ a ∈ ([] : List (Call × Bool)), a.2 = true) ∧
      ∃ cols, (init level).Stores cols ∅ := ⟨nofun, [], SkipList.init_stores hpos hbound⟩
  have hhistory : (∀ a ∈ [] ++ xs, a.2 = true) ∧ ∃ cols, y.1.Stores cols y.2 := by
    refine hrun.history
      (P := fun ys y => (∀ a ∈ ys, a.2 = true) ∧ ∃ cols, y.1.Stores cols y.2) ?_ hstart
    rintro ys ⟨s, stored⟩ ⟨a, ret⟩ ⟨t, stored'⟩ ⟨⟨hret, rfl⟩, hproper⟩ ⟨hys, cols, h⟩
    obtain ⟨t', cols', hret', ht, -⟩ := h.call hproper.sound
    obtain ⟨hreply, rfl⟩ := Prod.mk.inj (hret.unique hret')
    refine ⟨fun b hb => ?_, cols', ht⟩
    rcases List.mem_append.mp hb with hb | hb
    · exact hys b hb
    · obtain rfl := List.mem_singleton.mp hb
      exact hreply.trans hproper.reply
  exact hhistory.1

/-- The list is a sorted set: every call returns `true`, the levels are in order and hold the stored
keys, `search` finds the least key that is not below, and the counts are right. -/
theorem sorted_set {level : ℕ} (hpos : 0 < level) (hbound : level ≤ maxLevel)
    {xs : List (Call × Bool)} {s : SkipList} {stored : Finset Key}
    (hrun : Lts.Run (Lts.restrict Step fun x a => a.1.Proper x.2) (init level, ∅) xs (s, stored)) :
    (∀ a ∈ xs, a.2 = true) ∧
    (∀ a : Call, a.Proper stored → ∃ t, Fuel.Returns (fun fuel => s.call fuel a) (true, t)) ∧
    ∃ lvl, Levels s lvl ∧ (∀ k, k ∈ stored ↔ k ∈ (lvl (level - 1)).map s.key) ∧
      (∀ target, ∃ p, Fuel.Returns (fun fuel => s.search target fuel) p ∧
        ((p ∈ lvl (level - 1) ∧ target ≤ s.key p ∧
            ∀ q ∈ lvl (level - 1), target ≤ s.key q → s.key p ≤ s.key q) ∨
          (p = .tail (level - 1) ∧ ∀ q ∈ lvl (level - 1), s.key q < target))) ∧
      s.level = level ∧ s.keyCount = (lvl (level - 1)).length ∧
      s.nodeCount = ∑ i ∈ Finset.range level, ((lvl i).length : ℤ) := by
  have hsound : Lts.Run (Lts.restrict Step fun x a => a.1.Sound x.2) (init level, ∅) xs
      (s, stored) := hrun.mono fun _ _ _ hst => ⟨hst.1, hst.2.sound⟩
  obtain ⟨cols, h, rfl⟩ := stores_run hpos hbound hsound
  have hbottom : s.level - 1 - (s.level - 1) = 0 := Nat.sub_self _
  refine ⟨replies_true hpos hbound hrun, ?_, fun i => lane (s.level - 1 - i) cols,
    h.levels hpos, ?_⟩
  · intro a ha
    obtain ⟨t, -, hret, -⟩ := h.call ha.sound
    exact ⟨t, ha.reply ▸ hret⟩
  · simp only [hbottom]
    refine ⟨fun k => ?_, fun target => h.search target, trivial, ?_, ?_⟩
    · rw [h.mem_bottom, List.mem_map]
    · rw [h.keyCount, h.length_bottom]
    · rw [h.nodeCount]
      exact SkipList.sum_lanes h.height

/-- Three keys go in, and one of them goes. -/
theorem two_keys_left : ∃ s stored,
    Lts.Run (Lts.restrict Step fun x a => a.1.Proper x.2) (init 2, ∅)
      [(.insert 5, true), (.insert 3, true), (.insert 9, true), (.remove 5, true)] (s, stored) ∧
    stored = {3, 9} ∧ ∃ lvl, Levels s lvl ∧ s.keyCount = (lvl 1).length := by
  have h₀ : (init 2).Stores [] ∅ := SkipList.init_stores (by decide) (by decide)
  obtain ⟨s₁, _, hstep₁, h₁⟩ := h₀.exists_step (a := .insert 5) trivial
  obtain ⟨s₂, _, hstep₂, h₂⟩ := h₁.exists_step (a := .insert 3) trivial
  obtain ⟨s₃, _, hstep₃, h₃⟩ := h₂.exists_step (a := .insert 9) trivial
  have hmem : (5 : Key) ∈ (Call.insert 9).stored
      ((Call.insert 3).stored ((Call.insert 5).stored ∅)) := by decide
  obtain ⟨s₄, _, hstep₄, -⟩ := h₃.exists_step (a := .remove 5) (Or.inr hmem)
  have hrun : Lts.Run (Lts.restrict Step fun x a => a.1.Proper x.2) (init 2, ∅)
      [(.insert 5, true), (.insert 3, true), (.insert 9, true), (.remove 5, true)] (s₄, _) :=
    .stepL ⟨hstep₁, by decide, by decide⟩ <| .stepL ⟨hstep₂, by decide, by decide⟩ <|
      .stepL ⟨hstep₃, by decide, by decide⟩ <| .single ⟨hstep₄, hmem⟩
  obtain ⟨-, -, lvl, hlevels, -, -, -, hcount, -⟩ := sorted_set (by decide) (by decide) hrun
  exact ⟨s₄, _, hrun, by decide, lvl, hlevels, hcount⟩

end YwStorage.Skip

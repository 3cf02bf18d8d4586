import YwStorage.Lib.Chain
import YwStorage.SkipList.Basic

/-!
A skip list as a row of columns. A column is a key with the nodes of its tower, bottom first; the
chain of a level goes through the nodes that the columns have there.
-/
namespace YwStorage.Skip
open Chain

/-- A key and the nodes of its tower. -/
structure Column where
  key : Key
  nodes : List ℕ
  deriving DecidableEq

/-- The nodes that the columns have `r` levels above the bottom. -/
def lane (r : ℕ) (cols : List Column) : List Ptr :=
  cols.filterMap fun c => (c.nodes[r]?).map Ptr.node

/-- Node `n` is the one of key `k` that is `r` levels above the bottom. -/
def On (cols : List Column) (k : Key) (r n : ℕ) : Prop :=
  ∃ c ∈ cols, c.key = k ∧ c.nodes[r]? = some n

variable {s : SkipList} {cols A B : List Column} {c : Column} {r r' n m : ℕ} {p : Ptr}
  {k k' target : Key}

theorem mem_lane : p ∈ lane r cols ↔ ∃ k n, On cols k r n ∧ p = .node n := by
  simp only [lane, List.mem_filterMap, Option.map_eq_some_iff]
  constructor
  · rintro ⟨c, hc, n, hn, rfl⟩
    exact ⟨c.key, n, ⟨c, hc, rfl, hn⟩, rfl⟩
  · rintro ⟨k, n, ⟨c, hc, -, hn⟩, rfl⟩
    exact ⟨c, hc, n, hn, rfl⟩

theorem On.left (h : On A k r n) : On (A ++ B) k r n := by
  obtain ⟨c, hc, hk, hn⟩ := h
  exact ⟨c, List.mem_append_left B hc, hk, hn⟩

theorem On.right (h : On B k r n) : On (A ++ B) k r n := by
  obtain ⟨c, hc, hk, hn⟩ := h
  exact ⟨c, List.mem_append_right A hc, hk, hn⟩

theorem lane_append : lane r (A ++ B) = lane r A ++ lane r B := List.filterMap_append

theorem lane_cons : lane r (c :: B) = ((c.nodes[r]?).map Ptr.node).toList ++ lane r B := by
  cases h : c.nodes[r]? with
  | none => simp [lane, h]
  | some n => simp [lane, h]

theorem le_lastKey (k : Key) : k ≤ lastKey := by
  have hk := k.isLt
  show k.val ≤ 2 ^ 32 - 1
  omega

namespace SkipList

/-- The ends of the chain that is `r` levels above the bottom. -/
def headAt (s : SkipList) (r : ℕ) : Ptr := .head (s.level - 1 - r)

def tailAt (s : SkipList) (r : ℕ) : Ptr := .tail (s.level - 1 - r)

/-- The columns with their keys, and the links between the levels. -/
structure Towers (s : SkipList) (cols : List Column) : Prop where
  sorted : (cols.map Column.key).Pairwise (· < ·)
  inner : ∀ c ∈ cols, initKey < c.key ∧ c.key < lastKey
  height : ∀ c ∈ cols, c.nodes.length ≤ s.level
  made : ∀ {k r n}, On cols k r n → n < s.made
  apart : ∀ {k k' r r' n}, On cols k r n → On cols k' r' n → k = k' ∧ r = r'
  keys : ∀ {k r n}, On cols k r n → s.key (.node n) = k
  up : ∀ {k r n m}, On cols k r n → On cols k (r + 1) m → s.up (.node n) = .node m
  top : ∀ {k r n}, On cols k r n → (∀ m, ¬ On cols k (r + 1) m) → s.up (.node n) = .null
  down : ∀ {k r n m}, On cols k r n → On cols k (r + 1) m → s.down (.node m) = .node n
  bottom : ∀ {k n}, On cols k 0 n → s.down (.node n) = .null
  headDown : ∀ r, r + 1 < s.level → s.down (s.headAt (r + 1)) = s.headAt r
  tailKey : ∀ i, s.key (.tail i) = lastKey

/-- The chain of each level goes through the nodes of its lane. -/
structure Built (s : SkipList) (cols : List Column) : Prop extends s.Towers cols where
  lanes : ∀ r < s.level, Seg s.next (s.headAt r) (lane r cols) (s.tailAt r)

/-- The last node of the lane before `B`, or the head. -/
def front (s : SkipList) (r : ℕ) (A : List Column) : Ptr := (lane r A).getLastD (s.headAt r)

/-- `target` belongs between `A` and `B`. -/
structure Parted (target : Key) (A B : List Column) : Prop where
  below : ∀ c ∈ A, c.key < target
  above : ∀ c ∈ B, target ≤ c.key

namespace Towers

theorem column_unique (h : s.Towers cols) {c c' : Column} (hc : c ∈ cols) (hc' : c' ∈ cols)
    (hkey : c.key = c'.key) : c = c' := by
  have hnodup : (cols.map Column.key).Nodup := h.sorted.imp fun hlt => ne_of_lt hlt
  exact List.inj_on_of_nodup_map hnodup hc hc' hkey

theorem lane_nodup (h : s.Towers cols) : (s.headAt r :: lane r cols).Nodup := by
  refine List.nodup_cons.mpr ⟨fun hmem => ?_, List.pairwise_filterMap.mpr ?_⟩
  · obtain ⟨k, n, -, heq⟩ := mem_lane.mp hmem
    cases heq
  · refine (List.pairwise_map.mp h.sorted).imp_of_mem fun {c c'} hc hc' hlt p hp q hq heq => ?_
    obtain ⟨n, hn, rfl⟩ := Option.map_eq_some_iff.mp hp
    obtain ⟨m, hm, rfl⟩ := Option.map_eq_some_iff.mp hq
    obtain rfl := Ptr.node.inj heq
    exact ne_of_lt hlt (h.apart ⟨c, hc, rfl, hn⟩ ⟨c', hc', rfl, hm⟩).1

/-- A node is on one level only. -/
theorem lanes_apart (h : s.Towers cols) (hr : r < s.level) (hr' : r' < s.level)
    (hp : p ∈ s.headAt r :: lane r cols) (hp' : p ∈ s.headAt r' :: lane r' cols) : r = r' := by
  rcases List.mem_cons.mp hp with rfl | hp
  · rcases List.mem_cons.mp hp' with heq | hp'
    · have hindex : s.level - 1 - r = s.level - 1 - r' := Ptr.head.inj heq
      omega
    · obtain ⟨k, n, -, heq⟩ := mem_lane.mp hp'
      cases heq
  · obtain ⟨k, n, hon, rfl⟩ := mem_lane.mp hp
    rcases List.mem_cons.mp hp' with heq | hp'
    · cases heq
    · obtain ⟨k', n', hon', heq⟩ := mem_lane.mp hp'
      obtain rfl := Ptr.node.inj heq
      exact (h.apart hon hon').2

end Towers

theorem headAt_ne_null : s.headAt r ≠ .null := by simp [headAt]

theorem ne_null_of_mem_lane (hp : p ∈ s.headAt r :: lane r cols) : p ≠ .null := by
  rcases List.mem_cons.mp hp with rfl | hp
  · exact headAt_ne_null
  · obtain ⟨k, n, -, rfl⟩ := mem_lane.mp hp
    simp

theorem front_mem : s.front r A ∈ s.headAt r :: lane r A := getLastD_mem_cons ..

namespace Built

theorem next_front (h : s.Built (A ++ B)) (hr : r < s.level) :
    s.next (s.front r A) = (lane r B).headD (s.tailAt r) := by
  have hseg := h.lanes r hr
  rw [lane_append] at hseg
  exact hseg.next_getLastD

/-- What comes behind `A` on a level is the tail or a node of `B`. -/
theorem next_front_cases (h : s.Built (A ++ B)) (hr : r < s.level) :
    s.next (s.front r A) ≠ .null ∧
      (s.key (s.next (s.front r A)) = lastKey ∨ ∃ c ∈ B, s.key (s.next (s.front r A)) = c.key) := by
  rw [h.next_front hr]
  cases hB : lane r B with
  | nil => exact ⟨by simp [tailAt], Or.inl (h.tailKey _)⟩
  | cons p ps =>
    have hp : p ∈ lane r B := by simp [hB]
    refine ⟨ne_null_of_mem_lane (s := s) (List.mem_cons_of_mem _ hp), Or.inr ?_⟩
    obtain ⟨k, n, hon, rfl⟩ := mem_lane.mp hp
    have hkey : s.key (.node n) = k := h.keys hon.right
    obtain ⟨c, hc, rfl, -⟩ := hon
    exact ⟨c, hc, hkey⟩

/-- The search stops in front of `B`. -/
theorem key_next_front (h : s.Built (A ++ B)) (hparted : Parted target A B) (hr : r < s.level) :
    target ≤ s.key (s.next (s.front r A)) ∧ s.next (s.front r A) ≠ .null := by
  obtain ⟨hnull, hkey | ⟨c, hc, hkey⟩⟩ := h.next_front_cases hr
  · exact ⟨hkey ▸ le_lastKey target, hnull⟩
  · exact ⟨hkey ▸ hparted.above c hc, hnull⟩

/-- The search goes along a level up to the last node before `B`. -/
theorem searchLoop_walk (h : s.Built (A ++ B)) (hparted : Parted target A B) (hr : r < s.level)
    {us vs : List Ptr} (hsplit : lane r A = us ++ vs) {i : ℕ} {history : ℕ → Ptr}
    {res : Ptr × (ℕ → Ptr)}
    (hret : Fuel.Returns (fun fuel => s.searchLoop target fuel (s.front r A) i history) res) :
    Fuel.Returns (fun fuel => s.searchLoop target fuel (us.getLastD (s.headAt r)) i history)
      res := by
  induction vs generalizing us with
  | nil =>
    rw [List.append_nil] at hsplit
    rwa [front, hsplit] at hret
  | cons p vs ih =>
    have hp : p ∈ lane r A := by simp [hsplit]
    have hnext : s.next (us.getLastD (s.headAt r)) = p := by
      have hseg := h.lanes r hr
      rw [lane_append, hsplit, List.append_assoc] at hseg
      exact hseg.next_getLastD
    have hlt : s.key p < target := by
      obtain ⟨k, n, hon, rfl⟩ := mem_lane.mp hp
      rw [h.keys hon.left]
      obtain ⟨c, hc, rfl, -⟩ := hon
      exact hparted.below c hc
    have hcur : us.getLastD (s.headAt r) ≠ .null := by
      have hsub : us ⊆ lane r A := by simp [hsplit]
      have hmem : us.getLastD (s.headAt r) ∈ s.headAt r :: lane r A :=
        List.cons_subset_cons _ hsub (getLastD_mem_cons us (s.headAt r))
      exact ne_null_of_mem_lane hmem
    have hnull : p ≠ .null := ne_null_of_mem_lane (s := s) (List.mem_cons_of_mem _ hp)
    have hsplit' : lane r A = (us ++ [p]) ++ vs := by simpa using hsplit
    have hrest := ih hsplit'
    rw [List.getLastD_concat] at hrest
    refine hrest.turn fun fuel => ?_
    rw [searchLoop, hnext, if_neg (not_or.mpr ⟨hcur, hnull⟩), if_pos hlt]

/-- One level down, the search goes on at the same column. -/
theorem down_front (h : s.Built (A ++ B)) (hr : r + 1 < s.level) :
    ∃ us vs, lane r A = us ++ vs ∧ s.down (s.front (r + 1) A) = us.getLastD (s.headAt r) := by
  rcases List.mem_cons.mp (front_mem (s := s) (r := r + 1) (A := A)) with heq | hmem
  · refine ⟨[], lane r A, rfl, ?_⟩
    rw [heq]
    exact h.headDown r hr
  · obtain ⟨-, m, ⟨c, hc, rfl, hm⟩, heq⟩ := mem_lane.mp hmem
    obtain ⟨A₁, A₂, rfl⟩ := List.append_of_mem hc
    have hlen : r + 1 < c.nodes.length := (List.getElem?_eq_some_iff.mp hm).1
    obtain ⟨n, hn⟩ : ∃ n, c.nodes[r]? = some n :=
      ⟨_, List.getElem?_eq_getElem (Nat.lt_of_succ_lt hlen)⟩
    refine ⟨lane r A₁ ++ [.node n], lane r A₂, ?_, ?_⟩
    · simp [lane_append, lane_cons, hn]
    · rw [heq, List.getLastD_concat]
      exact h.down ⟨c, by simp, rfl, hn⟩ ⟨c, by simp, rfl, hm⟩

/-- From a place on level `r` on, the search leaves the nodes before `B` in the history. -/
theorem searchLoop_returns (h : s.Built (A ++ B)) (hparted : Parted target A B)
    (hr : r < s.level) {us vs : List Ptr} (hsplit : lane r A = us ++ vs) (history : ℕ → Ptr) :
    ∃ history', Fuel.Returns (fun fuel => s.searchLoop target fuel (us.getLastD (s.headAt r))
        (s.level - 1 - r) history) (s.front 0 A, history') ∧
      (∀ q ≤ r, history' (s.level - 1 - q) = s.front q A) ∧
      ∀ i < s.level - 1 - r, history' i = history i := by
  have hstop := h.key_next_front hparted hr
  have hcur : s.front r A ≠ .null := ne_null_of_mem_lane front_mem
  induction r generalizing us vs history with
  | zero =>
    refine ⟨Function.update history (s.level - 1) (s.front 0 A), ?_, ?_, ?_⟩
    · refine h.searchLoop_walk hparted hr hsplit (Fuel.Returns.turn (.const _) fun fuel => ?_)
      rw [searchLoop, if_neg (not_or.mpr ⟨hcur, hstop.2⟩), if_neg (not_lt.mpr hstop.1)]
      exact if_pos (by omega)
    · intro q hq
      obtain rfl := Nat.le_zero.mp hq
      exact Function.update_self ..
    · intro i hi
      exact Function.update_of_ne (by omega) ..
  | succ r ih =>
    obtain ⟨us', vs', hsplit', hdown⟩ := h.down_front hr
    have hr' : r < s.level := Nat.lt_of_succ_lt hr
    obtain ⟨history', hret, hat, hsame⟩ := ih hr' hsplit'
      (Function.update history (s.level - 1 - (r + 1)) (s.front (r + 1) A))
      (h.key_next_front hparted hr') (ne_null_of_mem_lane front_mem)
    refine ⟨history', ?_, ?_, ?_⟩
    · refine h.searchLoop_walk hparted hr hsplit (hret.turn fun fuel => ?_)
      rw [searchLoop, if_neg (not_or.mpr ⟨hcur, hstop.2⟩), if_neg (not_lt.mpr hstop.1), hdown]
      have hindex : s.level - 1 - (r + 1) + 1 = s.level - 1 - r := by omega
      rw [hindex]
      exact if_neg (by omega)
    · intro q hq
      rcases Nat.le_succ_iff.mp hq with hq | rfl
      · exact hat q hq
      · rw [hsame _ (by omega), Function.update_self]
    · intro i hi
      rw [hsame i (by omega), Function.update_of_ne (by omega)]

/-- `_search` returns the last node below `target` on the bottom level, and the history holds the
one of each level. -/
theorem searchFrom_returns (h : s.Built (A ++ B)) (hparted : Parted target A B)
    (hlevel : 0 < s.level) : ∃ history,
      Fuel.Returns (fun fuel => s.searchFrom target fuel) (s.front 0 A, history) ∧
      ∀ q < s.level, history (s.level - 1 - q) = s.front q A := by
  have hsplit : lane (s.level - 1) A = [] ++ lane (s.level - 1) A := rfl
  obtain ⟨history, hret, hat, -⟩ := h.searchLoop_returns hparted (Nat.sub_lt hlevel Nat.one_pos)
    hsplit fun _ => .null
  refine ⟨history, ?_, fun q hq => hat q (by omega)⟩
  have hhead : s.headAt (s.level - 1) = .head 0 := by simp [headAt]
  simpa [hhead, searchFrom] using hret

end Built
/-- The other fields of the list do not matter. -/
theorem Built.withCounts (h : s.Built cols) (seq : UInt64) (keyCount nodeCount : ℤ) :
    Built { s with seq := seq, keyCount := keyCount, nodeCount := nodeCount } cols where
  sorted := h.sorted
  inner := h.inner
  height := h.height
  made := h.made
  apart := h.apart
  keys := h.keys
  up := h.up
  top := h.top
  down := h.down
  bottom := h.bottom
  headDown := h.headDown
  tailKey := h.tailKey
  lanes := h.lanes

/-- A list between two calls. -/
structure Valid (s : SkipList) (cols : List Column) : Prop extends s.Built cols where
  full : ∀ c ∈ cols, c.nodes ≠ []
  positive : 0 < s.level
  bound : s.level ≤ maxLevel
  keyCount : s.keyCount = cols.length
  nodeCount : s.nodeCount = (cols.map fun c => (c.nodes.length : ℤ)).sum

/-- Every column reaches the bottom level. -/
theorem Valid.next_front_bottom (h : s.Valid (A ++ c :: B)) :
    ∃ n, c.nodes[0]? = some n ∧ s.next (s.front 0 A) = .node n ∧ s.key (.node n) = c.key := by
  obtain ⟨n, ns, hnodes⟩ := List.exists_cons_of_ne_nil (h.full c (by simp))
  have hn : c.nodes[0]? = some n := by simp [hnodes]
  refine ⟨n, hn, ?_, h.keys ⟨c, by simp, rfl, hn⟩⟩
  rw [h.next_front h.positive, lane_cons, hn]
  rfl

/-- Every key has its place in the row. -/
theorem exists_parted (hsorted : (cols.map Column.key).Pairwise (· < ·)) (target : Key) :
    ∃ A B, cols = A ++ B ∧ Parted target A B := by
  induction cols with
  | nil => exact ⟨[], [], rfl, by simp, by simp⟩
  | cons c cols ih =>
    obtain ⟨hc, hsorted⟩ := List.pairwise_cons.mp hsorted
    by_cases hlt : c.key < target
    · obtain ⟨A, B, rfl, hparted⟩ := ih hsorted
      refine ⟨c :: A, B, rfl, fun d hd => ?_, hparted.above⟩
      rcases List.mem_cons.mp hd with rfl | hd
      · exact hlt
      · exact hparted.below d hd
    · refine ⟨[], c :: cols, rfl, by simp, fun d hd => ?_⟩
      rcases List.mem_cons.mp hd with rfl | hd
      · exact not_lt.mp hlt
      · exact (not_lt.mp hlt).trans (hc d.key (List.mem_map_of_mem hd)).le

end SkipList
end YwStorage.Skip

import YwStorage.FsNode.Sort

/-! The two searches of a node and the inserts that use them. -/
namespace YwStorage.FsNode
open Slots OrderedNode

namespace Node
variable {η κ α : Type*} [LinearOrder α] {c : Config} {key : κ → α} {n m : Node η κ} {v : κ}
  {cnt : ℕ}

theorem int32_of_lt {x : ℤ} (hlo : 0 ≤ x) (hhi : x < 2 ^ 31) : int32 x = some x :=
  if_pos ⟨by omega, hhi⟩

theorem int32_of_le {x : ℤ} (h : 2 ^ 31 ≤ x) : int32 x = none := if_neg (by omega)

theorem toInt32_of_lt {x : ℤ} (hlo : -1 ≤ x) (hhi : x < 2 ^ 31) : toInt32 x = x := by
  rw [toInt32, Int.bmod_def]
  omega

theorem read_of_lt {i : ℕ} (hi : i < n.count) : n.read i = some (n.slot i) := by
  rw [read, if_pos (by omega), Int.toNat_natCast]

/-- The first `cnt` keys are those that are not above `v`. -/
def Cut (key : κ → α) (n : Node η κ) (v : κ) (cnt : ℕ) : Prop :=
  cnt ≤ n.count ∧ ∀ i, i < n.count → (key v < key (n.slot i) ↔ cnt ≤ i)

/-- `r` is the greatest index whose key is not above that of `v`, or -1. -/
def IsLast (key : κ → α) (n : Node η κ) (v : κ) (r : ℤ) : Prop :=
  -1 ≤ r ∧ r < n.count ∧ ∀ i, i < n.count → (key (n.slot i) ≤ key v ↔ (i : ℤ) ≤ r)

theorem Cut.isLast (h : Cut key n v cnt) : IsLast key n v (cnt - 1) := by
  have hle := h.1
  refine ⟨by omega, by omega, fun i hi => ?_⟩
  rw [← not_lt, h.2 i hi]
  omega

/-- The closed interval always ends one below the cut. -/
theorem bisect_eq (h : Cut key n v cnt) (hcount : n.count ≤ 2 ^ 30) (fuel : ℕ) {min max : ℤ}
    (hmin : 0 ≤ min) (hlo : min ≤ cnt) (hhi : (cnt : ℤ) ≤ max + 1) (hmax : max < n.count)
    (hfuel : max - min + 1 < fuel) : n.bisect key v fuel min max = some (cnt - 1 : ℤ) := by
  have hle := h.1
  induction fuel generalizing min max with
  | zero => omega
  | succ fuel ih =>
    rw [bisect]
    by_cases hin : min ≤ max
    · obtain ⟨mid, hmid⟩ := Int.eq_ofNat_of_zero_le (show 0 ≤ (min + max) / 2 by omega)
      have hlt : mid < n.count := by omega
      have hcut := h.2 mid hlt
      rw [if_pos hin, int32_of_lt (by omega) (by omega)]
      simp only [Option.bind_some, hmid, read_of_lt hlt]
      by_cases habove : key v < key (n.slot mid)
      · have := hcut.mp habove
        rw [if_pos habove]
        exact ih hmin hlo (by omega) (by omega) (by omega)
      · have := mt hcut.mpr habove
        rw [if_neg habove]
        exact ih (by omega) (by omega) hhi hmax (by omega)
    · by_cases hneg : min + max < 0
      · rw [if_neg hin, int32, if_pos (by omega), Option.map_some]
        congr 1
        omega
      · rw [if_neg hin, int32_of_lt (by omega) (by omega), Option.map_some]
        congr 1
        omega

/-- With more keys, the search for the greatest one overflows. -/
theorem bisect_overflow (h : ∀ i, i < n.count → key (n.slot i) ≤ key v)
    (hcount : 2 ^ 30 < n.count) (fuel : ℕ) {min : ℤ} (hmin : 0 ≤ min) (hle : min < n.count) :
    n.bisect key v fuel min (n.count - 1) = none := by
  induction fuel generalizing min with
  | zero => rfl
  | succ fuel ih =>
    rw [bisect, if_pos (by omega)]
    by_cases hsum : 2 ^ 31 ≤ min + (n.count - 1)
    · rw [int32_of_le hsum]
      rfl
    · obtain ⟨mid, hmid⟩ :=
        Int.eq_ofNat_of_zero_le (show 0 ≤ (min + ((n.count : ℤ) - 1)) / 2 by omega)
      have hlt : mid < n.count := by omega
      rw [int32_of_lt (by omega) (by omega)]
      simp only [Option.bind_some, hmid, read_of_lt hlt, if_neg (not_lt.mpr (h mid hlt))]
      exact ih (by omega) (by omega)

/-- The place that the half-size loop looks for stays in its range. -/
theorem halve_eq (h : Cut key n v cnt) (fuel : ℕ) {begin size : ℕ} (hlo : begin ≤ cnt - 1)
    (hhi : cnt - 1 < begin + size) (hend : begin + size ≤ n.count) (hfuel : size ≤ fuel) :
    n.halve key v fuel begin size ((size : ℤ).tdiv 2) = some ((cnt - 1 : ℕ) : ℤ) := by
  induction fuel generalizing begin size with
  | zero => omega
  | succ fuel ih =>
    have hhalf : (size : ℤ).tdiv 2 = ((size / 2 : ℕ) : ℤ) := rfl
    have hlt : begin + size / 2 < n.count := by omega
    have hcut := h.2 _ hlt
    have hnext : ∀ b s : ℕ, b ≤ cnt - 1 → cnt - 1 < b + s → b + s ≤ n.count → (2 ≤ s → s ≤ fuel) →
        (if (s : ℤ).tdiv 2 > 0 then n.halve key v fuel b s ((s : ℤ).tdiv 2) else some (b : ℤ)) =
          some ((cnt - 1 : ℕ) : ℤ) := by
      intro b s hb hs hbs hle
      have hs2 : (s : ℤ).tdiv 2 = ((s / 2 : ℕ) : ℤ) := rfl
      by_cases hpos : (s : ℤ).tdiv 2 > 0
      · rw [if_pos hpos]
        exact ih hb hs hbs (hle (by omega))
      · rw [if_neg hpos]
        congr 2
        omega
    rw [halve, hhalf, ← Nat.cast_add, read_of_lt hlt]
    simp only [Option.bind_some]
    by_cases habove : key v < key (n.slot (begin + size / 2))
    · have := hcut.mp habove
      simp only [if_pos habove]
      -- with one key left, the loop stops whatever the comparison says
      by_cases hone : size / 2 = 0
      · rw [hone, if_neg (by decide)]
        congr 2
        omega
      · exact hnext begin (size / 2) hlo (by omega) (by omega) (by omega)
    · have := mt hcut.mpr habove
      simp only [if_neg habove]
      rw [← Nat.cast_sub (Nat.div_le_self size 2)]
      exact hnext (begin + size / 2) (size - size / 2) (by omega) (by omega) (by omega) (by omega)

section Sorted
variable (hs : n.Sorted key)
include hs

theorem Sorted.cut (v : κ) : Cut key n v (below key v n.contents).length := by
  have hsplit := below_append_above key v n.contents
  have hlen := congrArg List.length hsplit
  rw [List.length_append, length_contents] at hlen
  refine ⟨by omega, fun i hi => ?_⟩
  have hi' : i < n.contents.length := by rwa [length_contents]
  have hget : (below key v n.contents ++ above key v n.contents)[i]? = some (n.slot i) := by
    rw [hsplit, List.getElem?_eq_getElem hi', (reads_contents n).get hi']
  constructor
  · intro hlt
    by_contra hle
    rw [List.getElem?_append_left (by omega)] at hget
    exact absurd hlt (not_lt.mpr (le_of_mem_below (List.mem_of_getElem? hget)))
  · intro hle
    rw [List.getElem?_append_right hle] at hget
    exact lt_of_mem_above hs (List.mem_of_getElem? hget)

end Sorted

theorem binarySearch_true (h : Cut key n v cnt) (hcount : n.count ≤ 2 ^ 30) :
    n.binarySearch key true v = some (cnt - 1 : ℤ) := by
  have hle := h.1
  rw [binarySearch, if_pos rfl, toInt32_of_lt (by omega) (by omega)]
  exact bisect_eq h hcount _ le_rfl (by omega) (by omega) (by omega) (by omega)

theorem binarySearch_false (h : Cut key n v cnt) (hpos : 0 < n.count)
    (hcount : n.count < 2 ^ 31) : n.binarySearch key false v = some ((cnt - 1 : ℕ) : ℤ) := by
  have hle := h.1
  rw [binarySearch, if_neg Bool.false_ne_true, toInt32_of_lt (by omega) (by omega)]
  show n.halve key v n.count ((0 : ℕ) : ℤ) n.count _ = _
  exact halve_eq h _ (Nat.zero_le _) (by omega) (by omega) le_rfl

/-- Both inserts go behind all keys that are not above the new one. -/
theorem insertIdx_eq (h : Cut key n v cnt) (hpos : 0 < n.count) (hcount : n.count ≤ 2 ^ 30)
    (binSearch : Bool) : n.insertIdx key binSearch v = some (cnt : ℤ) := by
  have hle := h.1
  cases binSearch with
  | true =>
    rw [insertIdx, if_pos rfl, binarySearch_true h hcount, Option.map_some]
    congr 1
    omega
  | false =>
    have hlt : cnt - 1 < n.count := by omega
    have hcut := h.2 _ hlt
    rw [insertIdx, if_neg Bool.false_ne_true, binarySearch_false h hpos (by omega),
      Option.bind_some, read_of_lt hlt, Option.map_some]
    congr 1
    by_cases hzero : cnt = 0
    · rw [if_neg (not_le.mpr (hcut.mpr (by omega)))]
      omega
    · rw [if_pos (not_lt.mp (mt hcut.mp (by omega)))]
      omega

theorem shiftUp_apply (idx i : ℕ) (slot : ℕ → κ) (j : ℕ) :
    shiftUp idx i slot j = if idx < j ∧ j < i then slot (j - 1) else slot j := by
  induction i generalizing slot with
  | zero => rw [shiftUp, if_neg (by omega)]
  | succ i ih =>
    rw [shiftUp]
    by_cases hi : (i : ℤ) > idx
    · rw [if_pos hi, ih]
      rcases Nat.lt_trichotomy j i with hlt | rfl | hgt
      · rw [Function.update_of_ne (by omega), Function.update_of_ne (by omega)]
        simp only [hlt, show j < i + 1 by omega]
      · rw [if_neg (by omega), if_pos (by omega), Function.update_self]
      · rw [if_neg (by omega), if_neg (by omega), Function.update_of_ne (by omega)]
    · rw [if_neg hi, if_neg (by omega)]

/-- The node with `v` at `idx` and the keys from there on one further up. -/
def opened (n : Node η κ) (idx : ℕ) (v : κ) : Node η κ :=
  { n with
    count := n.count + 1
    slot := Function.update (shiftUp idx n.count
      (Function.update n.slot n.count (n.slot (n.count - 1)))) idx v }

theorem insert_eq (hs : n.Sorted key) (hpos : 0 < n.count) (hcount : n.count ≤ 2 ^ 30)
    (hroom : n.count < c.maxSlotCount) (binSearch : Bool) (v : κ) :
    n.insert c key binSearch v = some (true, n.opened (below key v n.contents).length v) := by
  have hcut := hs.cut v
  have hle := hcut.1
  have hput : (0 : ℤ) ≤ (below key v n.contents).length ∧
      ((below key v n.contents).length : ℤ) < c.maxSlotCount := by omega
  rw [insert, if_neg (by omega), if_pos hpos, insertIdx_eq hcut hpos hcount, Option.bind_some,
    toInt32_of_lt (by omega) (by omega), Int.toNat_natCast]
  simp only [put, if_pos hput, Option.map_some, Int.toNat_natCast]
  rfl

theorem insert_empty (hzero : n.count = 0) (hroom : n.count < c.maxSlotCount) (binSearch : Bool)
    (v : κ) : n.insert c key binSearch v =
      some (true, { n with count := 1, slot := Function.update n.slot 0 v }) := by
  rw [insert, if_neg (by omega), if_neg (by omega), put, if_pos (by omega), hzero]
  rfl

theorem contents_opened {us vs : List κ} (hsplit : n.contents = us ++ vs) (v : κ) :
    (n.opened us.length v).contents = us ++ v :: vs := by
  have hlen := congrArg List.length hsplit
  rw [length_contents, List.length_append] at hlen
  refine contents_eq (Reads.insert (f := n.slot) ?_ fun i hi => ?_) ?_
  · rw [← hsplit]
    exact reads_contents n
  · rw [List.length_append] at hi
    simp only [opened]
    rcases Nat.lt_trichotomy i us.length with hlt | rfl | hgt
    · rw [Function.update_of_ne (by omega), shiftUp_apply, if_neg (by omega), if_pos hlt,
        Function.update_of_ne (by omega)]
    · rw [Function.update_self, if_neg (by omega), if_pos rfl]
    · rw [Function.update_of_ne (by omega), shiftUp_apply, if_neg (show ¬i < us.length by omega),
        if_neg (show i ≠ us.length by omega)]
      by_cases hi' : i < n.count
      · rw [if_pos ⟨hgt, hi'⟩, Function.update_of_ne (by omega)]
      · obtain rfl : i = n.count := by omega
        rw [if_neg (by omega), Function.update_self]
  · rw [List.length_append, List.length_cons]
    show us.length + (vs.length + 1) = n.count + 1
    omega

/-- Both variants insert, if there is space, and keep the order. -/
theorem insert_spec (hs : n.Sorted key) (hcount : n.count ≤ 2 ^ 30)
    (hroom : n.count < c.maxSlotCount) (v : κ) :
    ∃ m, (∀ binSearch, n.insert c key binSearch v = some (true, m)) ∧ m.count = n.count + 1 ∧
      m.Sorted key ∧ m.contents.Perm (v :: n.contents) := by
  rcases Nat.eq_zero_or_pos n.count with hzero | hpos
  · refine ⟨_, fun b => insert_empty hzero hroom b v, by rw [hzero], ?_, ?_⟩
    · exact List.pairwise_singleton _ _
    · simp [contents, hzero]
  · have hsplit := below_append_above key v n.contents
    have hcontents := contents_opened hsplit.symm v
    refine ⟨_, fun b => insert_eq hs hpos hcount hroom b v, rfl, ?_, ?_⟩
    · rw [Sorted, hcontents]
      exact AbsPage.Sorted.insert (a := ⟨n.contents, 0⟩) hs v
    · rw [hcontents]
      conv_rhs => rw [← hsplit]
      exact List.perm_middle

/-- Any number of inserts, while the searches stay in range. -/
theorem insertAll_spec (hmax : c.maxSlotCount ≤ 2 ^ 30 + 1) (vs : List κ) (hs : n.Sorted key) :
    ∃ m, (∀ binSearch, insertAll c key binSearch vs n = some m) ∧ m.Sorted key := by
  induction vs generalizing n with
  | nil => exact ⟨n, fun _ => rfl, hs⟩
  | cons v vs ih =>
    by_cases hroom : n.count < c.maxSlotCount
    · obtain ⟨m, hm, -, hsorted, -⟩ := insert_spec hs (by omega) hroom v
      obtain ⟨m', hm', hsorted'⟩ := ih hsorted
      refine ⟨m', fun b => ?_, hsorted'⟩
      rw [insertAll, hm b]
      exact hm' b
    · obtain ⟨m', hm', hsorted'⟩ := ih hs
      refine ⟨m', fun b => ?_, hsorted'⟩
      rw [insertAll, insert, if_pos (not_lt.mp hroom)]
      exact hm' b

/-- The searches that have to agree on one value. -/
def SearchesAgree (key : κ → α) (n : Node η κ) (v : κ) : Prop :=
  ∃ r, n.binarySearch key true v = some r ∧ IsLast key n v r ∧
    n.binarySearch key false v = some (max 0 r)

/-- The inserts that have to agree on a list of values. -/
def InsertsAgree (c : Config) (key : κ → α) (n : Node η κ) (vs : List κ) : Prop :=
  ∃ m, insertAll c key true vs n = some m ∧ insertAll c key false vs n = some m ∧ m.Sorted key

theorem searchesAgree_of_le (hs : n.Sorted key) (hpos : 0 < n.count) (hcount : n.count ≤ 2 ^ 30)
    (v : κ) : SearchesAgree key n v := by
  have hcut := hs.cut v
  refine ⟨_, binarySearch_true hcut hcount, hcut.isLast, ?_⟩
  rw [binarySearch_false hcut hpos (by omega)]
  congr 1
  omega

/-- A count above `2 ^ 31` is negative as an `int32_t`, and so is the result of the search. -/
theorem binarySearch_negative (hcount : 2 ^ 31 < n.count) (hmax : n.count + 64 ≤ 2 ^ 32) (v : κ) :
    n.binarySearch key true v = some (((n.count : ℤ) - 1 - 2 ^ 32) / 2) := by
  have hneg : toInt32 ((n.count : ℤ) - 1) = n.count - 1 - 2 ^ 32 := by
    rw [toInt32, Int.bmod_def]
    omega
  rw [binarySearch, if_pos rfl, hneg, bisect, if_neg (by omega), int32, if_pos (by omega),
    Option.map_some, zero_add]

/-- In a long node the first search fails for a key that is not below any other. -/
theorem binarySearch_long (hcount : 2 ^ 30 < n.count) (hmax : n.count + 64 ≤ 2 ^ 32)
    (h : ∀ i, i < n.count → key (n.slot i) ≤ key v) :
    n.binarySearch key true v = none ∨ ∃ r, n.binarySearch key true v = some r ∧ r < -1 ∧
      n.count ≤ r + 2 ^ 32 := by
  by_cases hsigned : n.count ≤ 2 ^ 31
  · left
    rw [binarySearch, if_pos rfl, toInt32_of_lt (by omega) (by omega)]
    exact bisect_overflow h hcount _ le_rfl (by omega)
  · exact Or.inr ⟨_, binarySearch_negative (by omega) hmax v, by omega, by omega⟩

theorem not_searchesAgree (hcount : 2 ^ 30 < n.count) (hmax : n.count + 64 ≤ 2 ^ 32)
    (h : ∀ i, i < n.count → key (n.slot i) ≤ key v) : ¬SearchesAgree key n v := by
  rintro ⟨r, hr, hlast, -⟩
  rcases binarySearch_long hcount hmax h with hnone | ⟨r', hr', hneg, -⟩
  · rw [hnone] at hr
    cases hr
  · obtain rfl := Option.some.inj (hr'.symm.trans hr)
    have := hlast.1
    omega

/-- Such a key cannot be inserted either. -/
theorem insert_long (hcount : 2 ^ 30 < n.count) (hmax : n.count + 64 ≤ 2 ^ 32)
    (hroom : n.count < c.maxSlotCount) (h : ∀ i, i < n.count → key (n.slot i) ≤ key v) :
    n.insert c key true v = none := by
  rw [insert, if_neg (by omega), if_pos (by omega), insertIdx, if_pos rfl]
  rcases binarySearch_long hcount hmax h with hnone | ⟨r, hr, hneg, -⟩
  · rw [hnone]
    rfl
  · have hput : ¬(0 ≤ r + 1 ∧ r + 1 < c.maxSlotCount) := by omega
    rw [hr, Option.map_some, Option.bind_some]
    simp only [put, if_neg hput, Option.map_none]

theorem insertAll_append (binSearch : Bool) (us vs : List κ) (n : Node η κ) :
    insertAll c key binSearch (us ++ vs) n =
      (insertAll c key binSearch us n).bind (insertAll c key binSearch vs) := by
  induction us generalizing n with
  | nil => rfl
  | cons u us ih =>
    rw [List.cons_append, insertAll, insertAll, Option.bind_assoc]
    exact congrArg _ (funext fun r => ih r.2)

/-- A greatest key, inserted again and again. -/
theorem insertAll_replicate (hs : n.Sorted key) (h : ∀ x ∈ n.contents, key x ≤ key v) {k : ℕ}
    (hk : n.count + k ≤ 2 ^ 30 + 1) (hroom : n.count + k ≤ c.maxSlotCount) :
    ∃ m, insertAll c key true (List.replicate k v) n = some m ∧ m.count = n.count + k ∧
      ∀ x ∈ m.contents, key x ≤ key v := by
  induction k generalizing n with
  | zero => exact ⟨n, rfl, rfl, h⟩
  | succ k ih =>
    have hlt : n.count < c.maxSlotCount := by omega
    obtain ⟨m, hm, hcount, hsorted, hperm⟩ := insert_spec hs (by omega) hlt v
    have hle : ∀ x ∈ m.contents, key x ≤ key v := by
      intro x hx
      rcases List.mem_cons.mp (hperm.subset hx) with rfl | hx
      · exact le_rfl
      · exact h x hx
    obtain ⟨m', hm', hcount', hle'⟩ := ih hsorted hle (by omega) (by omega)
    refine ⟨m', ?_, by omega, hle'⟩
    rw [List.replicate_succ, insertAll, hm true]
    exact hm'

theorem slot_mem_contents {i : ℕ} (hi : i < n.count) : n.slot i ∈ n.contents :=
  List.mem_map.mpr ⟨i, List.mem_range.mpr hi, rfl⟩

theorem Sorted.slot_le (hs : n.Sorted key) {i j : ℕ} (hij : i ≤ j) (hj : j < n.count) :
    key (n.slot i) ≤ key (n.slot j) := by
  rcases Nat.lt_or_eq_of_le hij with hlt | rfl
  · have hpair := List.pairwise_iff_getElem.mp hs i j (by rw [length_contents]; omega)
      (by rwa [length_contents]) hlt
    rwa [← (reads_contents n).get, ← (reads_contents n).get] at hpair
  · exact le_rfl

/-- A key that is not below any in the node; the node may be empty. -/
theorem Sorted.exists_greatest (hs : n.Sorted key) : ∃ v, ∀ x ∈ n.contents, key x ≤ key v := by
  refine ⟨n.slot (n.count - 1), fun x hx => ?_⟩
  obtain ⟨i, hi, rfl⟩ := List.mem_map.mp hx
  have hi' := List.mem_range.mp hi
  exact hs.slot_le (Nat.le_sub_one_of_lt hi') (by omega)

theorem not_insertsAgree (hs : n.Sorted key) (hle : n.count ≤ 2 ^ 30)
    (hmax : 2 ^ 30 + 1 < c.maxSlotCount) (hpage : c.maxSlotCount + 64 ≤ 2 ^ 32) :
    ∃ vs, ¬InsertsAgree c key n vs := by
  obtain ⟨v, hv⟩ := hs.exists_greatest
  obtain ⟨k, hk⟩ := Nat.exists_eq_add_of_le (Nat.le_succ_of_le hle)
  obtain ⟨m, hm, hcount, hgreatest⟩ : ∃ m, insertAll c key true (List.replicate k v) n = some m ∧
      m.count = n.count + k ∧ ∀ x ∈ m.contents, key x ≤ key v :=
    insertAll_replicate hs hv (by omega) (by omega)
  have hlast : m.insert c key true v = none :=
    insert_long (by omega) (by omega) (by omega) fun i hi => hgreatest _ (slot_mem_contents hi)
  refine ⟨List.replicate k v ++ [v], fun hagree => ?_⟩
  obtain ⟨m', hm', -⟩ := hagree
  rw [insertAll_append, hm, Option.bind_some, insertAll, hlast] at hm'
  cases hm'

theorem Config.maxSlotCount_le (c : Config) : c.maxSlotCount + 64 ≤ 2 ^ 32 := by
  have hdiv : c.maxSlotCount ≤ c.pageSize - 64 := Nat.div_le_self ..
  have hpage := c.page_le
  have hmeta := c.meta_le
  omega

/-- The two search modes agree, in the searches and in any sequence of inserts, if and only if the
signed sums of two indices stay in range. -/
theorem searchModes_agree_iff (hs : n.Sorted key) (hle : n.count ≤ c.maxSlotCount) :
    ((0 < n.count → ∀ v, SearchesAgree key n v) ∧ ∀ vs, InsertsAgree c key n vs) ↔
      n.count ≤ 2 ^ 30 ∧ c.maxSlotCount ≤ 2 ^ 30 + 1 := by
  have hpage := Config.maxSlotCount_le c
  constructor
  · rintro ⟨hsearch, hinsert⟩
    have hcount : n.count ≤ 2 ^ 30 := by
      by_contra hlong
      obtain ⟨v, hv⟩ := hs.exists_greatest
      exact not_searchesAgree (by omega) (by omega) (fun i hi => hv _ (slot_mem_contents hi))
        (hsearch (by omega) v)
    refine ⟨hcount, ?_⟩
    by_contra hlong
    obtain ⟨vs, hvs⟩ := not_insertsAgree hs hcount (not_le.mp hlong) hpage
    exact hvs (hinsert vs)
  · rintro ⟨hcount, hmax⟩
    refine ⟨fun hpos v => searchesAgree_of_le hs hpos hcount v, fun vs => ?_⟩
    obtain ⟨m, hm, hsorted⟩ := insertAll_spec hmax vs hs
    exact ⟨m, hm true, hm false, hsorted⟩

/-- The default page, with keys of four bytes. -/
def wordConfig : Config := ⟨32 * 1024, 4, by decide, by decide, by decide⟩

def shortNode : Node Unit ℕ := ⟨(), 0, 3, 32 * 1024 - 64, 0, fun i => i / 2⟩

theorem shortNode_modes_agree :
    (0 < shortNode.count → ∀ v, SearchesAgree id shortNode v) ∧
      ∀ vs, InsertsAgree wordConfig id shortNode vs :=
  (searchModes_agree_iff (by simp [Sorted, contents, shortNode, List.range_succ])
    (by decide)).mpr ⟨by decide, by decide⟩

/-- The first search adds two `int32_t` indices to more than fits for the last key of a node with
`2 ^ 30 + 1` keys. -/
theorem longNode_search_overflows :
    longNode.count ≤ byteConfig.maxSlotCount ∧ longNode.Sorted id ∧
      longNode.binarySearch id true 0 = none ∧ ¬SearchesAgree id longNode 0 := by
  have hzero : ∀ i, i < longNode.count → (id (longNode.slot i) : ℕ) ≤ id 0 := fun _ _ => le_rfl
  refine ⟨by decide, ?_, ?_, not_searchesAgree (by decide) (by decide) hzero⟩
  · exact List.pairwise_map.mpr (List.pairwise_lt_range.imp fun _ => le_rfl)
  · rw [binarySearch, if_pos rfl, toInt32_of_lt (by decide) (by decide)]
    exact bisect_overflow hzero (by decide) _ le_rfl (by decide)

end Node
end YwStorage.FsNode

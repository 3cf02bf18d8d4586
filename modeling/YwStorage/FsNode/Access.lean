import YwStorage.FsNode.Search
import YwStorage.Lib.Run

/-!
The calls of a node that take a key or look at all keys, and where they touch the array. The result
-1 of a search and the number `count - 1` of an empty node become indices of 32 bits.
-/
namespace YwStorage.FsNode
open Slots OrderedNode

/-- Conversion to `SLOT`. -/
def toSlot (x : ℤ) : ℕ := (x % 2 ^ 32).toNat

namespace Node
variable {η κ α : Type*} [LinearOrder α]

section Calls
variable (c : Config) (key : κ → α) (n : Node η κ)

def clear : Node η κ := { n with count := 0, freeOffset := c.pageSize - 64, freeSize := 0 }

def append (v : κ) : Bool × Node η κ :=
  if n.count ≥ c.maxSlotCount then (false, n)
  else (true, { n with slot := Function.update n.slot n.count v, count := n.count + 1 })

/-- `for (i = idx; i < count-1; ++i) slot[i] = slot[i+1];` with `k` turns left. -/
def shiftDown : ℕ → ℕ → (ℕ → κ) → ℕ → κ
  | _, 0, slot => slot
  | i, k + 1, slot => shiftDown (i + 1) k (Function.update slot i (slot (i + 1)))

/-- `remove(idx)` and `_remove`. -/
def removeAt (idx : ℕ) : Bool × Node η κ :=
  if n.count ≤ idx then (false, n)
  else (true, { n with
    slot := shiftDown idx (n.count - 1 - idx) n.slot
    count := n.count - 1 })

/-- `remove(value)`. -/
def removeKey (binSearch : Bool) (v : κ) : Option (Bool × Node η κ) :=
  (n.binarySearch key binSearch v).bind fun r =>
    let idx := toSlot r
    (n.read idx).map fun x => if key v = key x then n.removeAt idx else (false, n)

/-- `slot[idx] = *value` of a call that adds nothing. -/
def overwrite (idx : ℤ) (v : κ) : Option (Node η κ) :=
  if 0 ≤ idx ∧ idx < n.count then some { n with slot := Function.update n.slot idx.toNat v }
  else none

def inplaceUpdate (binSearch : Bool) (v : κ) : Option (Bool × Node η κ) :=
  (n.binarySearch key binSearch v).bind fun r =>
    let idx := if r < 0 then 0 else r
    if idx < toInt32 n.count then (n.overwrite idx v).map fun m => (true, m) else some (false, n)

/-- `search_body`, with its assertion. -/
def searchBody (binSearch : Bool) (v : κ) : Option κ :=
  (n.binarySearch key binSearch v).bind fun r =>
    let idx := if r < 0 then 0 else r
    if idx < toInt32 n.count then n.read idx else none

/-- The loop of `isOrdered`. -/
def orderedLoop (stop : ℕ) : ℕ → ℕ → Option Bool
  | 0, _ => none
  | fuel + 1, i =>
    if i < stop then
      (n.read i).bind fun x => (n.read (i + 1 : ℕ)).bind fun y =>
        if key y < key x then some false else orderedLoop stop fuel (i + 1)
    else some true

def isOrdered : Option Bool := n.orderedLoop key (toSlot (n.count - 1)) (n.count + 1) 0

/-- What `remove(value)` should do: drop one key equal to `v`, or nothing if there is none. -/
def Removed (v : κ) (r : Bool × Node η κ) : Prop :=
  (r.1 = true ∧ ∃ us x vs, n.contents = us ++ x :: vs ∧ key x = key v ∧ r.2.contents = us ++ vs) ∨
    (r.1 = false ∧ (∀ x ∈ n.contents, key x ≠ key v) ∧ r.2 = n)

/-- The calls for the key `v` stay below `count`, and `remove` does what it should. -/
structure Inside (binSearch : Bool) (v : κ) : Prop where
  removes : ∃ r, n.removeKey key binSearch v = some r ∧ n.Removed key v r
  updates : (n.inplaceUpdate key binSearch v).isSome
  finds : (n.searchBody key binSearch v).isSome
  ordered : (n.isOrdered key).isSome

end Calls

/-- The calls that change a node. -/
inductive Call (κ : Type*)
  | insert (v : κ)
  | append (v : κ)
  | removeAt (idx : ℕ)
  | removeKey (v : κ)
  | sort

/-- A call that returns. -/
inductive Step (c : Config) (key : κ → α) (binSearch : Bool) :
    Node η κ → Call κ → Node η κ → Prop
  | insert {n m : Node η κ} {v : κ} {ok : Bool}
      (h : n.insert c key binSearch v = some (ok, m)) : Step c key binSearch n (.insert v) m
  | append {n : Node η κ} {v : κ} : Step c key binSearch n (.append v) (n.append c v).2
  | removeAt {n : Node η κ} {idx : ℕ} : Step c key binSearch n (.removeAt idx) (n.removeAt idx).2
  | removeKey {n m : Node η κ} {v : κ} {ok : Bool}
      (h : n.removeKey key binSearch v = some (ok, m)) : Step c key binSearch n (.removeKey v) m
  | sort {n m : Node η κ} {fuel : ℕ} {buf₀ buf₁ : ℕ → κ}
      (h : n.sort key fuel buf₀ buf₁ = some m) : Step c key binSearch n .sort m

/-- The most keys that a search has indices for. -/
def searchLimit (binSearch : Bool) : ℕ := if binSearch then 2 ^ 30 else 2 ^ 31 - 1

/-- A key for which the search does not end at -1. -/
def Reached (key : κ → α) (n : Node η κ) (binSearch : Bool) (v : κ) : Prop :=
  binSearch = true → key (n.slot 0) ≤ key v

section Access
variable {c : Config} {key : κ → α} {n m : Node η κ} {v : κ} {binSearch : Bool} {i : ℕ}

theorem toSlot_of_lt (h : i < 2 ^ 32) : toSlot i = i := by
  rw [toSlot]
  omega

theorem read_of_ge {x : ℤ} (h : (n.count : ℤ) ≤ x) : n.read x = none := if_neg (by omega)

theorem read_of_neg {x : ℤ} (h : x < 0) : n.read x = none := if_neg (by omega)

/-- A search in a sorted node ends at an equal key if there is one. -/
theorem Sorted.search_hits (hs : n.Sorted key) (hpos : 0 < n.count)
    (hlimit : n.count ≤ searchLimit binSearch) (hv : Reached key n binSearch v) :
    ∃ i, i < n.count ∧ n.binarySearch key binSearch v = some (i : ℤ) ∧
      ((∃ x ∈ n.contents, key x = key v) → key v = key (n.slot i)) := by
  have hcut := hs.cut v
  generalize (below key v n.contents).length = cnt at hcut
  have hle := hcut.1
  refine ⟨cnt - 1, by omega, ?_, ?_⟩
  · cases binSearch with
    | true =>
      have hcnt : 0 < cnt := by
        by_contra hzero
        exact absurd ((hcut.2 0 hpos).mpr (by omega)) (not_lt.mpr (hv rfl))
      rw [binarySearch_true hcut hlimit]
      congr 1
      omega
    | false =>
      have hlt : n.count < 2 ^ 31 := by
        rw [searchLimit, if_neg Bool.false_ne_true] at hlimit
        omega
      exact binarySearch_false hcut hpos hlt
  · rintro ⟨x, hx, hxv⟩
    obtain ⟨j, hj, rfl⟩ := List.mem_map.mp hx
    have hj' := List.mem_range.mp hj
    have hjc : j < cnt := by
      by_contra hge
      have := (hcut.2 j hj').mpr (by omega)
      rw [hxv] at this
      exact lt_irrefl _ this
    have hlast : key (n.slot (cnt - 1)) ≤ key v :=
      not_lt.mp fun hlt => by
        have := (hcut.2 (cnt - 1) (by omega)).mp hlt
        omega
    have hmono := hs.slot_le (i := j) (j := cnt - 1) (by omega) (by omega)
    exact le_antisymm (hxv ▸ hmono) hlast

theorem shiftDown_apply (i k : ℕ) (slot : ℕ → κ) (j : ℕ) :
    shiftDown i k slot j = if i ≤ j ∧ j < i + k then slot (j + 1) else slot j := by
  induction k generalizing i slot with
  | zero => rw [shiftDown, if_neg (by omega)]
  | succ k ih =>
    rw [shiftDown, ih]
    rcases Nat.lt_trichotomy j i with hlt | rfl | hgt
    · rw [if_neg (by omega), if_neg (by omega), Function.update_of_ne (by omega)]
    · rw [if_neg (by omega), if_pos (by omega), Function.update_self]
    · rw [Function.update_of_ne (by omega), Function.update_of_ne (by omega)]
      simp only [show i + 1 ≤ j ↔ i ≤ j by omega, show j < i + 1 + k ↔ j < i + (k + 1) by omega]

/-- `_remove` drops the key at an index in use. -/
theorem removeAt_spec {us vs : List κ} {x : κ} (hsplit : n.contents = us ++ x :: vs) :
    (n.removeAt us.length).1 = true ∧ (n.removeAt us.length).2.contents = us ++ vs := by
  have hlen := congrArg List.length hsplit
  rw [length_contents, List.length_append, List.length_cons] at hlen
  rw [removeAt, if_neg (by omega)]
  refine ⟨rfl, contents_eq (Reads.erase (f := n.slot) (e := x) ?_ fun i hi => ?_) ?_⟩
  · rw [← hsplit]
    exact reads_contents n
  · rw [List.length_append] at hi
    show shiftDown us.length (n.count - 1 - us.length) n.slot i = _
    rw [shiftDown_apply]
    by_cases hlt : i < us.length
    · rw [if_neg (by omega), if_pos hlt]
    · rw [if_pos (by omega), if_neg hlt]
  · rw [List.length_append]
    show us.length + vs.length = n.count - 1
    omega

/-- The keys around an index in use. -/
theorem exists_contents_split (hi : i < n.count) :
    ∃ us vs, n.contents = us ++ n.slot i :: vs ∧ us.length = i := by
  have hi' : i < n.contents.length := by rwa [length_contents]
  obtain ⟨us, vs, hsplit, hlen⟩ := exists_split hi'
  rw [← (reads_contents n).get hi'] at hsplit
  exact ⟨us, vs, hsplit, hlen⟩

/-- What the search ends at decides what `remove` does. -/
theorem removeKey_of_hit (hi : i < n.count) (hlt : n.count < 2 ^ 32)
    (hr : n.binarySearch key binSearch v = some (i : ℤ))
    (hit : (∃ x ∈ n.contents, key x = key v) → key v = key (n.slot i)) :
    ∃ r, n.removeKey key binSearch v = some r ∧ n.Removed key v r := by
  rw [removeKey, hr, Option.bind_some]
  simp only [toSlot_of_lt (show i < 2 ^ 32 by omega), read_of_lt hi, Option.map_some]
  refine ⟨_, rfl, ?_⟩
  by_cases heq : key v = key (n.slot i)
  · rw [if_pos heq]
    obtain ⟨us, vs, hsplit, rfl⟩ := exists_contents_split hi
    obtain ⟨hok, hcontents⟩ := removeAt_spec hsplit
    exact Or.inl ⟨hok, us, _, vs, hsplit, heq.symm, hcontents⟩
  · rw [if_neg heq]
    exact Or.inr ⟨rfl, fun x hx hxv => heq (hit ⟨x, hx, hxv⟩), rfl⟩

theorem orderedLoop_isSome {stop fuel : ℕ} (hstop : stop < n.count) (hi : i ≤ stop)
    (hfuel : stop < fuel + i) : (n.orderedLoop key stop fuel i).isSome := by
  induction fuel generalizing i with
  | zero => omega
  | succ fuel ih =>
    rw [orderedLoop]
    by_cases hlt : i < stop
    · have hread := read_of_lt (n := n) (i := i + 1) (by omega)
      rw [if_pos hlt, read_of_lt (by omega), Option.bind_some, hread, Option.bind_some]
      split
      · rfl
      · exact ih (by omega) (by omega)
    · rw [if_neg hlt]
      rfl

theorem isOrdered_isSome_iff (hlt : n.count < 2 ^ 32) :
    (n.isOrdered key).isSome ↔ 0 < n.count := by
  rcases Nat.eq_zero_or_pos n.count with hzero | hpos
  · have hread : n.read (0 : ℕ) = none := read_of_ge (by omega)
    have hstop : toSlot ((0 : ℕ) - 1 : ℤ) = 2 ^ 32 - 1 := by decide
    rw [isOrdered, hzero, hstop, orderedLoop, if_pos (by decide), hread]
    simp
  · have hstop : toSlot ((n.count : ℤ) - 1) = n.count - 1 := by
      rw [toSlot]
      omega
    refine ⟨fun _ => hpos, fun _ => ?_⟩
    rw [isOrdered, hstop]
    exact orderedLoop_isSome (by omega) (Nat.zero_le _) (by omega)

theorem searchLimit_lt (binSearch : Bool) : searchLimit binSearch < 2 ^ 31 := by
  cases binSearch <;> decide

/-- With keys, and not too many, the calls for every key that the search reaches stay inside. -/
theorem Sorted.inside (hs : n.Sorted key) (hpos : 0 < n.count)
    (hlimit : n.count ≤ searchLimit binSearch) (hv : Reached key n binSearch v) :
    n.Inside key binSearch v := by
  have hlt := searchLimit_lt binSearch
  obtain ⟨i, hi, hr, hit⟩ := hs.search_hits hpos hlimit hv
  have hidx : (if (i : ℤ) < 0 then 0 else (i : ℤ)) = i := if_neg (by omega)
  have hcount : (i : ℤ) < toInt32 n.count := by
    rw [toInt32_of_lt (by omega) (by omega)]
    omega
  refine ⟨removeKey_of_hit hi (by omega) hr hit, ?_, ?_, ?_⟩
  · rw [inplaceUpdate, hr, Option.bind_some]
    simp only [hidx, if_pos hcount]
    rw [overwrite, if_pos ⟨by omega, by omega⟩]
    rfl
  · rw [searchBody, hr, Option.bind_some]
    simp only [hidx, if_pos hcount, read_of_lt hi]
    rfl
  · exact (isOrdered_isSome_iff (by omega)).mpr hpos

/-- The index -1 of a search is the last one of 32 bits. -/
theorem removeKey_of_miss {x : ℤ} (hr : n.binarySearch key binSearch v = some x)
    (hx : (n.count : ℤ) ≤ x % 2 ^ 32) : n.removeKey key binSearch v = none := by
  rw [removeKey, hr, Option.bind_some]
  simp only [toSlot]
  rw [read_of_ge (by omega)]
  rfl

/-- A node with too many keys for the indices of the search: its greatest key is not found. -/
theorem removeKey_long (hs : n.Sorted key) (hmax : n.count + 64 ≤ 2 ^ 32)
    (hlimit : searchLimit binSearch < n.count) :
    n.removeKey key binSearch (n.slot (n.count - 1)) = none := by
  cases binSearch with
  | true =>
    have hgreatest : ∀ i, i < n.count → key (n.slot i) ≤ key (n.slot (n.count - 1)) := fun i hi =>
      hs.slot_le (Nat.le_sub_one_of_lt hi) (by omega)
    rcases binarySearch_long hlimit hmax hgreatest with hnone | ⟨r, hr, hneg, hge⟩
    · rw [removeKey, hnone]
      rfl
    · exact removeKey_of_miss hr (by omega)
  | false =>
    have hlimit' : 2 ^ 31 - 1 < n.count := hlimit
    have hneg : toInt32 n.count = n.count - 2 ^ 32 := by
      rw [toInt32, Int.bmod_def]
      omega
    obtain ⟨k, hk⟩ : ∃ k, n.count = k + 1 := ⟨n.count - 1, by omega⟩
    have hread : n.read (0 + ((n.count : ℤ) - 2 ^ 32).tdiv 2) = none := by
      refine read_of_neg ?_
      obtain ⟨y, hy⟩ : ∃ y : ℕ, (n.count : ℤ) - 2 ^ 32 = -(y : ℤ) := ⟨2 ^ 32 - n.count, by omega⟩
      have hhalf : (y : ℤ).tdiv 2 = ((y / 2 : ℕ) : ℤ) := rfl
      rw [hy, Int.neg_tdiv, hhalf]
      omega
    rw [removeKey, binarySearch, if_neg Bool.false_ne_true, hneg, hk, halve, ← hk, hread]
    rfl

/-- The calls for every key that is reached stay inside exactly if the node has keys, and not too
many; a key that is not reached leads outside. -/
theorem Sorted.inside_iff (hs : n.Sorted key) (hle : n.count ≤ c.maxSlotCount) :
    ((∀ v, Reached key n binSearch v → n.Inside key binSearch v) ↔
      0 < n.count ∧ n.count ≤ searchLimit binSearch) ∧
    (0 < n.count → n.count ≤ searchLimit binSearch →
      ∀ v, n.Inside key binSearch v ↔ Reached key n binSearch v) := by
  have hpage := Config.maxSlotCount_le c
  have hlt := searchLimit_lt binSearch
  refine ⟨⟨fun h => ?_, fun h v hv => hs.inside h.1 h.2 hv⟩,
    fun hpos hlimit v => ⟨fun h hbin => ?_, hs.inside hpos hlimit⟩⟩
  · have hpos : 0 < n.count :=
      (isOrdered_isSome_iff (by omega)).mp (h (n.slot 0) fun _ => le_rfl).ordered
    refine ⟨hpos, ?_⟩
    by_contra hlong
    obtain ⟨r, hr, -⟩ := (h (n.slot (n.count - 1)) fun _ =>
      hs.slot_le (Nat.zero_le _) (by omega)).removes
    rw [removeKey_long hs (by omega) (not_le.mp hlong)] at hr
    cases hr
  · by_contra hbelow
    subst hbin
    have hcut : Cut key n v 0 := by
      refine ⟨Nat.zero_le _, fun i hi => ⟨fun _ => Nat.zero_le i, fun _ => ?_⟩⟩
      exact (not_le.mp hbelow).trans_le (hs.slot_le (Nat.zero_le i) hi)
    obtain ⟨r, hr, -⟩ := h.removes
    rw [removeKey_of_miss (binarySearch_true hcut hlimit) (by omega)] at hr
    cases hr

theorem put_count {idx : ℤ} (h : n.put c idx v = some m) : m.count = n.count := by
  rw [put] at h
  split at h
  · obtain rfl := Option.some.inj h
    rfl
  · cases h

theorem insert_count_le {ok : Bool} (h : n.insert c key binSearch v = some (ok, m))
    (hle : n.count ≤ c.maxSlotCount) : m.count ≤ c.maxSlotCount := by
  rw [insert] at h
  split at h
  · obtain ⟨-, rfl⟩ := Prod.mk.inj (Option.some.inj h)
    exact hle
  · rename_i hroom
    split at h
    · obtain ⟨idx, -, h⟩ := Option.bind_eq_some_iff.mp h
      obtain ⟨m', hput, heq⟩ := Option.map_eq_some_iff.mp h
      obtain ⟨-, rfl⟩ := Prod.mk.inj heq
      rw [put_count hput]
      exact not_le.mp hroom
    · obtain ⟨m', hput, heq⟩ := Option.map_eq_some_iff.mp h
      obtain ⟨-, rfl⟩ := Prod.mk.inj heq
      rw [put_count hput]
      exact not_le.mp hroom

theorem removeAt_count_le (n : Node η κ) (idx : ℕ) : (n.removeAt idx).2.count ≤ n.count := by
  rw [removeAt]
  split
  · exact le_rfl
  · exact Nat.sub_le ..

theorem removeKey_count_le {ok : Bool} (h : n.removeKey key binSearch v = some (ok, m)) :
    m.count ≤ n.count := by
  obtain ⟨r, -, h⟩ := Option.bind_eq_some_iff.mp h
  obtain ⟨x, -, h⟩ := Option.map_eq_some_iff.mp h
  split at h
  · have := n.removeAt_count_le (toSlot r)
    rwa [h] at this
  · obtain ⟨-, rfl⟩ := Prod.mk.inj h
    exact le_rfl

theorem count_le_step {a : Call κ} (h : Step c key binSearch n a m)
    (hle : n.count ≤ c.maxSlotCount) : m.count ≤ c.maxSlotCount := by
  cases h with
  | insert h => exact insert_count_le h hle
  | append =>
    rw [append]
    split
    · exact hle
    · rename_i hroom
      exact not_le.mp hroom
  | removeAt => exact (removeAt_count_le n _).trans hle
  | removeKey h => exact (removeKey_count_le h).trans hle
  | sort h =>
    obtain ⟨src, -, rfl⟩ := Option.map_eq_some_iff.mp h
    exact hle

end Access

def blankNode : Node Unit ℤ := ⟨(), 0, 0, 0, 0, fun _ => 0⟩

def pairNode : Node Unit ℤ :=
  (((blankNode.clear wordConfig).append wordConfig 4).2.append wordConfig 6).2

-- in a node that is not sorted a search can miss a key
example : (((blankNode.clear wordConfig).append wordConfig 6).2.append wordConfig 4).2.removeKey id
    true 4 = none := rfl

end Node
end YwStorage.FsNode

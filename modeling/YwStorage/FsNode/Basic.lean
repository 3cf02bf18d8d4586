import YwStorage.Lib.MergeSort
import YwStorage.OrderedNode.Spec

/-!
The node of `ywfsnode.h`, which keeps its keys themselves in an array, used by one thread: locks are
always granted and the lock word is left out. Indices are `int32_t` in the searches and `uint32_t`
elsewhere; a signed addition that overflows and an access outside the keys in use give `none`.
-/
namespace YwStorage.FsNode

/-- Template parameters, as far as they are sizes; the laws are the static assertions. -/
structure Config where
  pageSize : ℕ
  keySize : ℕ
  keySize_pos : 0 < keySize
  meta_le : 64 ≤ pageSize
  page_le : pageSize - 1 ≤ 2 ^ 32 - 1

/-- `IDEAL_MAX_SLOT_COUNT`. -/
def Config.maxSlotCount (c : Config) : ℕ := (c.pageSize - 64) / c.keySize

structure Node (η κ : Type*) where
  header : η
  newNode : ℕ
  count : ℕ
  freeOffset : ℕ
  freeSize : ℕ
  slot : ℕ → κ

/-- A value of a signed computation. -/
def int32 (x : ℤ) : Option ℤ := if -2 ^ 31 ≤ x ∧ x < 2 ^ 31 then some x else none

/-- Conversion to `int32_t`. -/
def toInt32 (x : ℤ) : ℤ := x.bmod (2 ^ 32)

namespace Node
variable {η κ α : Type*} [LinearOrder α] (c : Config) (key : κ → α) (n : Node η κ)

/-- `slot[i]`, read by a search. -/
def read (i : ℤ) : Option κ := if 0 ≤ i ∧ i < n.count then some (n.slot i.toNat) else none

/-- The loop of `binary_search` for `bin_search`. -/
def bisect (v : κ) : ℕ → ℤ → ℤ → Option ℤ
  | 0, _, _ => none
  | fuel + 1, min, max =>
    if min ≤ max then
      (int32 (min + max)).bind fun sum =>
        let mid := sum / 2
        (n.read mid).bind fun x =>
          if key v < key x then bisect v fuel min (mid - 1) else bisect v fuel (mid + 1) max
    else (int32 (min + max)).map (· / 2)

/-- The loop of `binary_search` without `bin_search`. -/
def halve (v : κ) : ℕ → ℤ → ℤ → ℤ → Option ℤ
  | 0, _, _, _ => none
  | fuel + 1, begin, size, half =>
    (n.read (begin + half)).bind fun x =>
      let (begin, size) := if key v < key x then (begin, half) else (begin + half, size - half)
      let half := size.tdiv 2
      if half > 0 then halve v fuel begin size half else some begin

def binarySearch (binSearch : Bool) (v : κ) : Option ℤ :=
  if binSearch then n.bisect key v (n.count + 1) 0 (toInt32 (n.count - 1))
  else
    let size := toInt32 n.count
    n.halve key v n.count 0 size (size.tdiv 2)

/-- Where `insert` puts its value in a node that is not empty. -/
def insertIdx (binSearch : Bool) (v : κ) : Option ℤ :=
  if binSearch then (n.binarySearch key true v).map (· + 1)
  else
    (n.binarySearch key false v).bind fun idx =>
      (n.read idx).map fun x => if key x ≤ key v then idx + 1 else idx

/-- `while ((--i) > idx) slot[i] = slot[i-1];` -/
def shiftUp (idx : ℤ) : ℕ → (ℕ → κ) → ℕ → κ
  | 0, slot => slot
  | i + 1, slot =>
    if (i : ℤ) > idx then shiftUp idx i (Function.update slot i (slot (i - 1))) else slot

/-- `slot[idx] = *value`. -/
def put (idx : ℤ) (v : κ) : Option (Node η κ) :=
  if 0 ≤ idx ∧ idx < c.maxSlotCount then
    some { n with slot := Function.update n.slot idx.toNat v }
  else none

def insert (binSearch : Bool) (v : κ) : Option (Bool × Node η κ) :=
  if n.count ≥ c.maxSlotCount then some (false, n)
  else if n.count > 0 then
    (n.insertIdx key binSearch v).bind fun idx =>
      let slot := Function.update n.slot n.count (n.slot (n.count - 1))
      let slot := shiftUp idx (toInt32 n.count).toNat slot
      (({ n with slot, count := n.count + 1 } : Node η κ).put c idx v).map fun m => (true, m)
  else (({ n with count := n.count + 1 } : Node η κ).put c 0 v).map fun m => (true, m)

/-- One insert after the other. -/
def insertAll (binSearch : Bool) : List κ → Node η κ → Option (Node η κ)
  | [], n => some n
  | v :: vs, n => (n.insert c key binSearch v).bind fun r => insertAll binSearch vs r.2

/-- `memcpy(dst, src, count * KEY_SIZE)`. -/
def copy (count : ℕ) (src dst : ℕ → κ) : ℕ → κ := fun i => if i < count then src i else dst i

/-- `sort`, with at most `fuel` turns of each loop; `buf₀` and `buf₁` are what its two buffers hold
before. -/
def sort (fuel : ℕ) (buf₀ buf₁ : ℕ → κ) : Option (Node η κ) :=
  (MergeSort.sortLoop (2 ^ 32) (fun x y => key x < key y) n.count fuel fuel 2
    (copy n.count n.slot buf₀) buf₁).map fun src => { n with slot := copy n.count src n.slot }

/-- The keys in use. -/
def contents : List κ := (List.range n.count).map n.slot

def Sorted : Prop := n.contents.Pairwise fun x y => key x ≤ key y

end Node
end YwStorage.FsNode

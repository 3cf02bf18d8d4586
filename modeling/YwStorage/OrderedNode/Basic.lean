import YwStorage.Lib.Bytes

/-!
The slotted page of `yworderednode.h`, used by one thread.

The slot directory grows up and the records grow down in one array of bytes. `bytes` is that array,
which starts behind the page header; locks are always granted. `wrap` marks where a value is stored
in a `SLOT`. The order of `KEY` is that of a field `key`: `compare(a, b)` is positive if and only
if `key a < key b`.
-/
namespace YwStorage.OrderedNode
open Bytes

/-- Template parameters, as far as they are sizes; the laws are the static assertions. -/
structure Config where
  slotSize : ℕ
  headerSize : ℕ
  pageSize : ℕ
  slotSize_pos : 0 < slotSize
  /-- `SLOT` has at most 32 bits, which keeps the `int32_t` indices of the searches in range. -/
  slotSize_le : slotSize ≤ 4
  meta_le : headerSize + 8 + 4 + slotSize * 2 ≤ pageSize
  page_le : pageSize - 1 ≤ 256 ^ slotSize - 1

namespace Config
variable (c : Config)

def metaSize : ℕ := c.headerSize + 8 + 4 + c.slotSize * 2

/-- `PAGE_SIZE - META_SIZE`. -/
def bodySize : ℕ := c.pageSize - c.metaSize

/-- Conversion to `SLOT`. -/
def wrap (x : ℤ) : ℕ := (x % (256 ^ c.slotSize : ℕ)).toNat

def nullSlot : ℕ := c.wrap (-1)

end Config

structure Page where
  bytes : Mem
  count : ℕ
  freeOffset : ℕ

namespace Page
variable {κ α : Type*} [LinearOrder α] (c : Config) (d : Codec κ) (key : κ → α) (p : Page)

def clear : Page := { p with count := 0, freeOffset := c.wrap (c.pageSize - c.metaSize : ℤ) }

/-- `slot[i]`. -/
def slot (i : ℕ) : ℕ := load p.bytes (i * c.slotSize) c.slotSize

def setSlot (i v : ℕ) : Page := { p with bytes := store p.bytes (i * c.slotSize) c.slotSize v }

def get (idx : ℕ) : κ := d.load p.bytes (p.slot c idx)

/-- `value->write(get_ptr(offset))`. -/
def write (offset : ℕ) (value : κ) : Page := { p with bytes := d.store p.bytes offset value }

def getFree : ℕ := c.wrap (p.freeOffset - p.count * c.slotSize : ℤ)

def alloc (size : ℕ) : ℕ × Page :=
  if p.getFree c ≥ size + c.slotSize then
    let freeOffset := c.wrap (p.freeOffset - size : ℤ)
    (freeOffset, { p with freeOffset })
  else (c.nullSlot, p)

/-- The loop of `binary_search`; `min` and `max` meet, so `fuel` bounds the turns. -/
def searchLoop (less : ℕ → Bool) : ℕ → ℤ → ℤ → ℤ
  | 0, min, max => (min + max) / 2
  | fuel + 1, min, max =>
    if min ≤ max then
      let mid := (min + max) / 2
      if less mid.toNat then searchLoop less fuel min (mid - 1)
      else searchLoop less fuel (mid + 1) max
    else (min + max) / 2

def binarySearch (value : κ) : ℤ :=
  searchLoop (fun mid => key value < key (p.get c d mid)) (p.count + 1) 0 (p.count - 1)

def append (value : κ) : Bool × Page :=
  let (ret, p₁) := p.alloc c (c.wrap (d.size value))
  if ret = c.nullSlot then (false, p₁)
  else
    let p₂ := p₁.write d ret value
    (true, { p₂.setSlot c p₂.count ret with count := c.wrap (p₂.count + 1) })

/-- `while ((--i) > idx) slot[i] = slot[i-1];` -/
def shiftUp (idx : ℕ) : ℕ → Page → Page
  | 0, p => p
  | i + 1, p => if i > idx then shiftUp idx i (p.setSlot c i (p.slot c (i - 1))) else p

/-- The part of `insert` that moves the slots from `idx` on and counts the new one. -/
def openSlot (idx : ℕ) : Page :=
  if p.count > 0 then
    let p₁ := p.setSlot c p.count (p.slot c (p.count - 1))
    shiftUp c idx p₁.count { p₁ with count := c.wrap (p₁.count + 1) }
  else { p with count := c.wrap (p.count + 1) }

def insert (value : κ) : Bool × Page :=
  let (ret, p₁) := p.alloc c (c.wrap (d.size value))
  if ret = c.nullSlot then (false, p₁)
  else
    let p₂ := p₁.write d ret value
    let idx := c.wrap (p₂.binarySearch c d key value + 1)
    (true, (p₂.openSlot c idx).setSlot c idx ret)

def inplaceUpdate (value : κ) : Bool × Page :=
  let idx := p.binarySearch c d key value
  let idx := if idx < 0 then 0 else idx
  if idx < p.count then
    if d.size value = d.size (p.get c d idx.toNat) then
      (true, p.write d (p.slot c idx.toNat) value)
    else (false, p)
  else (false, p)

/-- `for (i = idx; i < count-1; ++i) slot[i] = slot[i+1];` with `n` turns left. -/
def shiftDown : ℕ → ℕ → Page → Page
  | _, 0, p => p
  | i, n + 1, p => shiftDown (i + 1) n (p.setSlot c i (p.slot c (i + 1)))

def removeAt (idx : ℕ) : Bool × Page :=
  if p.count ≤ idx then (false, p)
  else
    let p₁ := shiftDown c idx (p.count - 1 - idx) p
    (true, { p₁ with count := c.wrap (p₁.count - 1 : ℤ) })

def removeKey (value : κ) : Bool × Page :=
  let idx := c.wrap (p.binarySearch c d key value)
  if 0 ≤ idx ∧ idx < p.count then
    if key value = key (p.get c d idx) then p.removeAt c idx else (false, p)
  else (false, p)

section MergeSort
variable (less : ℕ → ℕ → Bool) (count : ℕ) (src : ℕ → ℕ)

/-- `while ((j < i+level) && (j < count)) dst[j++] = src[k++];` with `n` turns left. -/
def drain : ℕ → (ℕ → ℕ) → ℕ → ℕ → ℕ → ℕ
  | 0, dst, _, _ => dst
  | n + 1, dst, j, k => drain n (Function.update dst j (src k)) (j + 1) (k + 1)

/-- The `do` loop that merges the runs at `left` and `right`, with the slot it stops at. Every turn
fills a slot, so `fuel` bounds the turns. -/
def mergeLoop (i level : ℕ) : ℕ → (ℕ → ℕ) → ℕ → ℕ → ℕ → (ℕ → ℕ) × ℕ
  | 0, dst, j, _, _ => (dst, j)
  | fuel + 1, dst, j, left, right =>
    let stop := min (i + level) count
    if less (src left) (src right) then
      let dst₁ := Function.update dst j (src left)
      if left + 1 = i + level / 2 then
        (drain src (stop - (j + 1)) dst₁ (j + 1) right, max stop (j + 1))
      else if j + 1 < stop then mergeLoop i level fuel dst₁ (j + 1) (left + 1) right
      else (dst₁, j + 1)
    else
      let dst₁ := Function.update dst j (src right)
      if right + 1 = i + level ∨ right + 1 = count then
        (drain src (stop - (j + 1)) dst₁ (j + 1) left, max stop (j + 1))
      else if j + 1 < stop then mergeLoop i level fuel dst₁ (j + 1) left (right + 1)
      else (dst₁, j + 1)

/-- One pass over all pairs of runs; `none` when the fuel does not suffice. -/
def passLoop (level : ℕ) : ℕ → ℕ → (ℕ → ℕ) → ℕ → Option (ℕ → ℕ)
  | 0, _, _, _ => none
  | fuel + 1, i, dst, j =>
    if i < count then
      let right := c.wrap (i + level / 2)
      if right ≥ count then some (drain src (min (i + level) count - j) dst j i)
      else
        let (dst₁, j₁) := mergeLoop less count src i level (count + 1) dst j i right
        passLoop level fuel (c.wrap (i + level)) dst₁ j₁
    else some dst

/-- The passes, with runs of `level / 2` slots; the buffers are flipped after each. -/
def sortLoop (turns : ℕ) : ℕ → ℕ → (ℕ → ℕ) → (ℕ → ℕ) → Option (ℕ → ℕ)
  | 0, _, _, _ => none
  | fuel + 1, level, src, dst =>
    if level / 2 < count then do
      let dst₁ ← passLoop c less count src level turns 0 dst 0
      sortLoop turns fuel (c.wrap (level * 2)) dst₁ src
    else some src

end MergeSort

/-- `memcpy(slot, src, count * sizeof(SLOT))`. -/
def copySlots (src : ℕ → ℕ) : ℕ → Page → Page
  | 0, p => p
  | n + 1, p => (copySlots src n p).setSlot c n (src n)

/-- `sort`, with at most `fuel` turns of each loop; `buf` is what the second buffer holds before. -/
def sort (fuel : ℕ) (buf : ℕ → ℕ) : Option Page := do
  let less := fun a b => decide (key (d.load p.bytes a) < key (d.load p.bytes b))
  let src ← sortLoop c less p.count fuel fuel 2 (p.slot c) buf
  return copySlots c src p.count p

end Page
end YwStorage.OrderedNode

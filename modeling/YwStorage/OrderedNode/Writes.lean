import YwStorage.OrderedNode.History

/-!
The single stores that a call makes, in the order of the source, and the pages between them. A slot
is stored at once, a record byte by byte.
-/
namespace YwStorage.OrderedNode
open Bytes Slots

/-- A store to the record area, to the slot array, or to a counter of the page. -/
inductive Write
  | byte (x : ℕ) (b : UInt8)
  | slot (i v : ℕ)
  | count (n : ℕ)
  | free (o : ℕ)

namespace Page
variable {κ α : Type*} [LinearOrder α] (c : Config) (d : Codec κ) (key : κ → α) (p : Page)

def apply : Write → Page
  | .byte x b => { p with bytes := Function.update p.bytes x b }
  | .slot i v => p.setSlot c i v
  | .count n => { p with count := n }
  | .free o => { p with freeOffset := o }

def applyAll : Page → List Write → Page := List.foldl (apply c)

/-- The pages after each of the stores. -/
def states : Page → List Write → List Page
  | _, [] => []
  | p, w :: ws => p.apply c w :: states (p.apply c w) ws

def recordWrites (offset : ℕ) (value : κ) : List Write :=
  (List.range (d.size value)).map fun j => .byte (offset + j) (d.write value j)

def shiftUpWrites (idx : ℕ) : ℕ → Page → List Write
  | 0, _ => []
  | i + 1, p =>
    if i > idx then
      .slot i (p.slot c (i - 1)) :: shiftUpWrites idx i (p.setSlot c i (p.slot c (i - 1)))
    else []

def openSlotWrites (idx : ℕ) : List Write :=
  if p.count > 0 then
    let p₁ := p.setSlot c p.count (p.slot c (p.count - 1))
    .slot p.count (p.slot c (p.count - 1)) :: .count (c.wrap (p₁.count + 1)) ::
      shiftUpWrites c idx p₁.count { p₁ with count := c.wrap (p₁.count + 1) }
  else [.count (c.wrap (p.count + 1))]

def allocWrites (size : ℕ) : List Write :=
  if p.getFree c ≥ size + c.slotSize then [.free (c.wrap (p.freeOffset - size : ℤ))] else []

def insertWrites (value : κ) : List Write :=
  let (ret, p₁) := p.alloc c (c.wrap (d.size value))
  p.allocWrites c (c.wrap (d.size value)) ++
    if ret = c.nullSlot then []
    else
      let p₂ := p₁.write d ret value
      let idx := c.wrap (p₂.binarySearch c d key value + 1)
      recordWrites d ret value ++ (openSlotWrites c p₂ idx ++ [.slot idx ret])

def shiftDownWrites : ℕ → ℕ → Page → List Write
  | _, 0, _ => []
  | i, n + 1, p =>
    .slot i (p.slot c (i + 1)) :: shiftDownWrites (i + 1) n (p.setSlot c i (p.slot c (i + 1)))

def removeAtWrites (idx : ℕ) : List Write :=
  if p.count ≤ idx then []
  else
    let p₁ := shiftDown c idx (p.count - 1 - idx) p
    shiftDownWrites c idx (p.count - 1 - idx) p ++ [.count (c.wrap (p₁.count - 1 : ℤ))]

def appendWrites (value : κ) : List Write :=
  let (ret, p₁) := p.alloc c (c.wrap (d.size value))
  p.allocWrites c (c.wrap (d.size value)) ++
    if ret = c.nullSlot then []
    else recordWrites d ret value ++ [.slot p₁.count ret, .count (c.wrap (p₁.count + 1))]

def inplaceUpdateWrites (value : κ) : List Write :=
  let idx := p.binarySearch c d key value
  let idx := if idx < 0 then 0 else idx
  if idx < p.count then
    if d.size value = d.size (p.get c d idx.toNat) then
      recordWrites d (p.slot c idx.toNat) value
    else []
  else []

def removeKeyWrites (value : κ) : List Write :=
  let idx := c.wrap (p.binarySearch c d key value)
  if 0 ≤ idx ∧ idx < p.count then
    if key value = key (p.get c d idx) then p.removeAtWrites c idx else []
  else []

/-- A sort stores only when it copies its buffer back. -/
def sortWrites (fuel : ℕ) (buf : ℕ → ℕ) : Option (List Write) := do
  let less := fun a b => decide (key (d.load p.bytes a) < key (d.load p.bytes b))
  let src ← sortLoop c less p.count fuel fuel 2 (p.slot c) buf
  return (List.range p.count).map fun i => .slot i (src i)

/-- The stores of a call; a sort that does not return has none. -/
def callWrites (fuel : ℕ) (buf : ℕ → ℕ) : Op κ → Option (List Write)
  | .insert v => some (p.insertWrites c d key v)
  | .append v => some (p.appendWrites c d v)
  | .removeAt idx => some (p.removeAtWrites c idx)
  | .removeKey v => some (p.removeKeyWrites c d key v)
  | .inplaceUpdate v => some (p.inplaceUpdateWrites c d key v)
  | .sort => p.sortWrites c d key fuel buf
  | .get _ => some []

end Page

namespace Page
variable {κ α : Type*} [LinearOrder α] {c : Config} {d : Codec κ} {key : κ → α} {p q : Page}
  {ws ws' : List Write} {v : κ} {o : ℕ}

@[simp] theorem applyAll_nil : applyAll c p [] = p := rfl

@[simp] theorem applyAll_cons (w : Write) :
    applyAll c p (w :: ws) = applyAll c (p.apply c w) ws := rfl

@[simp] theorem applyAll_append : applyAll c p (ws ++ ws') = applyAll c (applyAll c p ws) ws' := by
  simp [applyAll]

@[simp] theorem states_append :
    states c p (ws ++ ws') = states c p ws ++ states c (applyAll c p ws) ws' := by
  induction ws generalizing p with
  | nil => rfl
  | cons w ws ih => rw [List.cons_append, states, states, ih, List.cons_append, applyAll_cons]

/-- The bytes of a record while it is being written. -/
theorem applyAll_bytes (p : Page) (o n : ℕ) (f : ℕ → UInt8) :
    applyAll c p ((List.range n).map fun j => .byte (o + j) (f j)) =
      { p with bytes := fun x => if o ≤ x ∧ x < o + n then f (x - o) else p.bytes x } := by
  induction n with
  | zero =>
    have hbytes : (fun x => if o ≤ x ∧ x < o + 0 then f (x - o) else p.bytes x) = p.bytes := by
      funext x
      rw [if_neg (by omega)]
    rw [hbytes]
    rfl
  | succ n ih =>
    rw [List.range_succ, List.map_append, applyAll_append, ih]
    simp only [List.map_cons, List.map_nil, applyAll_cons, applyAll_nil, apply, mk.injEq, and_self,
      and_true]
    funext x
    by_cases hx : x = o + n
    · subst hx
      rw [Function.update_self, if_pos (by omega), Nat.add_sub_cancel_left]
    · rw [Function.update_of_ne hx]
      simp only [show x < o + (n + 1) ↔ x < o + n by omega]

theorem applyAll_recordWrites : applyAll c p (recordWrites d o v) = p.write d o v :=
  applyAll_bytes ..

theorem applyAll_shiftUpWrites (idx n : ℕ) (p : Page) :
    applyAll c p (shiftUpWrites c idx n p) = shiftUp c idx n p := by
  induction n generalizing p with
  | zero => rfl
  | succ n ih =>
    rw [shiftUpWrites, shiftUp]
    by_cases hn : n > idx
    · rw [if_pos hn, if_pos hn, applyAll_cons]
      exact ih _
    · rw [if_neg hn, if_neg hn, applyAll_nil]

theorem applyAll_openSlotWrites (p : Page) (idx : ℕ) :
    applyAll c p (openSlotWrites c p idx) = p.openSlot c idx := by
  rw [openSlotWrites, openSlot]
  by_cases hpos : p.count > 0
  · rw [if_pos hpos, if_pos hpos, applyAll_cons, applyAll_cons]
    exact applyAll_shiftUpWrites idx _ _
  · rw [if_neg hpos, if_neg hpos]
    rfl

theorem applyAll_shiftDownWrites (i n : ℕ) (p : Page) :
    applyAll c p (shiftDownWrites c i n p) = shiftDown c i n p := by
  induction n generalizing i p with
  | zero => rfl
  | succ n ih =>
    rw [shiftDownWrites, shiftDown, applyAll_cons]
    exact ih (i + 1) _

theorem applyAll_allocWrites (p : Page) (size : ℕ) :
    applyAll c p (p.allocWrites c size) = (p.alloc c size).2 := by
  rw [allocWrites, alloc]
  split <;> rfl

/-- The stores of `insert` make its page. -/
theorem applyAll_insertWrites (p : Page) (v : κ) :
    applyAll c p (p.insertWrites c d key v) = (p.insert c d key v).2 := by
  rw [insertWrites, insert]
  rcases halloc : p.alloc c (c.wrap (d.size v)) with ⟨ret, p₁⟩
  have hp₁ := applyAll_allocWrites (c := c) p (c.wrap (d.size v))
  rw [halloc] at hp₁
  simp only [applyAll_append, hp₁]
  by_cases hnull : ret = c.nullSlot
  · rw [if_pos hnull, if_pos hnull, applyAll_nil]
  · rw [if_neg hnull, if_neg hnull, applyAll_append, applyAll_recordWrites, applyAll_append,
      applyAll_openSlotWrites]
    rfl

theorem applyAll_removeAtWrites (p : Page) (idx : ℕ) :
    applyAll c p (p.removeAtWrites c idx) = (p.removeAt c idx).2 := by
  rw [removeAtWrites, removeAt]
  by_cases hidx : p.count ≤ idx
  · rw [if_pos hidx, if_pos hidx, applyAll_nil]
  · rw [if_neg hidx, if_neg hidx, applyAll_append, applyAll_shiftDownWrites]
    rfl

theorem applyAll_appendWrites (p : Page) (v : κ) :
    applyAll c p (p.appendWrites c d v) = (p.append c d v).2 := by
  rw [appendWrites, append]
  rcases halloc : p.alloc c (c.wrap (d.size v)) with ⟨ret, p₁⟩
  have hp₁ := applyAll_allocWrites (c := c) p (c.wrap (d.size v))
  rw [halloc] at hp₁
  simp only [applyAll_append, hp₁]
  by_cases hnull : ret = c.nullSlot
  · rw [if_pos hnull, if_pos hnull, applyAll_nil]
  · rw [if_neg hnull, if_neg hnull, applyAll_append, applyAll_recordWrites]
    rfl

theorem applyAll_inplaceUpdateWrites (p : Page) (v : κ) :
    applyAll c p (p.inplaceUpdateWrites c d key v) = (p.inplaceUpdate c d key v).2 := by
  rw [inplaceUpdateWrites, inplaceUpdate]
  generalize (if p.binarySearch c d key v < 0 then 0 else p.binarySearch c d key v) = idx
  by_cases hidx : idx < p.count
  · simp only [if_pos hidx]
    by_cases hsize : d.size v = d.size (p.get c d idx.toNat)
    · rw [if_pos hsize, if_pos hsize, applyAll_recordWrites]
    · rw [if_neg hsize, if_neg hsize, applyAll_nil]
  · simp only [if_neg hidx, applyAll_nil]

theorem applyAll_removeKeyWrites (p : Page) (v : κ) :
    applyAll c p (p.removeKeyWrites c d key v) = (p.removeKey c d key v).2 := by
  rw [removeKeyWrites, removeKey]
  generalize c.wrap (p.binarySearch c d key v) = idx
  by_cases hidx : 0 ≤ idx ∧ idx < p.count
  · simp only [if_pos hidx]
    by_cases hkey : key v = key (p.get c d idx)
    · rw [if_pos hkey, if_pos hkey, applyAll_removeAtWrites]
    · rw [if_neg hkey, if_neg hkey, applyAll_nil]
  · simp only [if_neg hidx, applyAll_nil]

theorem applyAll_copySlots (src : ℕ → ℕ) (n : ℕ) (p : Page) :
    applyAll c p ((List.range n).map fun i => .slot i (src i)) = copySlots c src n p := by
  induction n with
  | zero => rfl
  | succ n ih =>
    rw [List.range_succ, List.map_append, applyAll_append, ih, copySlots]
    rfl

/-- The stores of a call make its page. -/
theorem applyAll_callWrites (p : Page) (fuel : ℕ) (buf : ℕ → ℕ) (op : Op κ) :
    (p.callWrites c d key fuel buf op).map (applyAll c p) =
      (p.call c d key fuel buf op).map Prod.snd := by
  cases op with
  | insert v => exact congrArg some (applyAll_insertWrites p v)
  | append v => exact congrArg some (applyAll_appendWrites p v)
  | removeAt idx => exact congrArg some (applyAll_removeAtWrites p idx)
  | removeKey v => exact congrArg some (applyAll_removeKeyWrites p v)
  | inplaceUpdate v => exact congrArg some (applyAll_inplaceUpdateWrites p v)
  | sort =>
    simp only [callWrites, call, sortWrites, sort, Option.map_map]
    cases sortLoop c _ p.count fuel fuel 2 (p.slot c) buf with
    | none => rfl
    | some src => exact congrArg some (applyAll_copySlots src p.count p)
  | get idx => rfl

end Page
end YwStorage.OrderedNode

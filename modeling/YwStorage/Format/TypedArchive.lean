import YwStorage.Format.Barray

/-!
The typed archives `ywt_write` and `ywt_read` of `ywtype.h` with the type modules of `ywtype.cc`.
A dump that reaches memory which is not there gives `none`. Lengths are not negative, and no size
exceeds an `int32_t`.
-/
namespace YwStorage.Format
open Bytes

/-- The types that are dumped as they lie in memory. -/
inductive Prim
  | ywtInt
  | ywtLong
  | ywtFloat
  | ywtPtr

/-- `sizeof`. -/
def Prim.size : Prim → ℕ
  | .ywtInt | .ywtFloat => 4
  | .ywtLong | .ywtPtr => 8

/-- A field, by its type; `value` points to the bytes of a `ywtBarray`. -/
inductive Val
  | prim (t : Prim) (v : BitVec (8 * t.size))
  | ywtBarray (len : ℕ) (value : ℕ → UInt8)

/-- What lies at an address, if something does. -/
abbrev Heap := ℕ → Option UInt8

/-- `memcpy` of an `int32_t` from an address. -/
def Heap.fetch (heap : Heap) (addr : ℕ) : Option (List UInt8) :=
  (List.range 4).mapM fun j => heap (addr + j)

/-- `memcpy` of an `int32_t` to an address. -/
def Heap.put (heap : Heap) (addr : ℕ) (src : ℕ → UInt8) : Option Heap :=
  (heap.fetch addr).map fun _ x => if addr ≤ x ∧ x < addr + 4 then some (src (x - addr)) else heap x

namespace Val
variable (heap : Heap)

def getSize : Val → ℕ
  | prim t _ => t.size
  | ywtBarray len _ => if len ≥ longLen then len + 5 else len + 1

/-- `write_f` and `write_ywtbarray`. -/
def write (m : Mem) (buf : ℕ) : Val → Option Mem
  | prim t v => some (store m buf t.size v.toNat)
  | ywtBarray len value =>
    if len ≥ longLen then
      -- the length is taken for the address of the length
      (heap.fetch len).map fun bytes =>
        copy (copy (Function.update m buf (UInt8.ofNat longLen)) (buf + 1)
          (fun j => bytes.getD j 0) 4) (buf + 5) value len
    else some (copy (Function.update m buf (UInt8.ofNat len)) (buf + 1) value len)

/-- `read_f` and `read_ywtbarray`; the second argument is what the field held before. -/
def read (m : Mem) (buf : ℕ) : Val → Option (Val × Heap)
  | prim t _ => some (prim t (BitVec.ofNat _ (load m buf t.size)), heap)
  | ywtBarray len _ =>
    if (m buf).toNat = longLen then
      (heap.put len fun j => m (buf + 1 + j)).map fun heap =>
        (ywtBarray len fun j => m (buf + 5 + j), heap)
    else some (ywtBarray (m buf).toNat fun j => m (buf + 1 + j), heap)

/-- Both are fields of one type. -/
def SameType : Val → Val → Prop
  | prim t _, prim t' _ => t = t'
  | ywtBarray .., ywtBarray .. => True
  | _, _ => False

/-- Equal values; arrays have the same length and the same bytes. -/
def Same : Val → Val → Prop
  | prim t v, prim t' v' => (⟨t, v⟩ : Σ t : Prim, BitVec (8 * t.size)) = ⟨t', v'⟩
  | ywtBarray len value, ywtBarray len' value' =>
    len = len' ∧ ∀ j, j < len → value j = value' j
  | _, _ => False

end Val

/-- `ywt_write` or `ywt_read`. -/
structure TypedArchive where
  size : ℕ
  buffer : Mem
  offset : ℕ

namespace TypedArchive
variable (heap : Heap)

/-- `ywt_write::dump`. -/
def write (a : TypedArchive) (v : Val) : Option (Bool × TypedArchive) :=
  if a.offset + v.getSize > a.size then some (false, a)
  else (v.write heap a.buffer a.offset).map fun m =>
    (true, { a with buffer := m, offset := a.offset + v.getSize })

/-- `ywt_read::dump`; the field is read before the size is known. -/
def read (a : TypedArchive) (old : Val) : Option (Bool × Val × Heap × TypedArchive) :=
  (old.read heap a.buffer a.offset).map fun r =>
    if a.offset + r.1.getSize > a.size then (false, r.1, r.2, a)
    else (true, r.1, r.2, { a with offset := a.offset + r.1.getSize })

def writeAll (a : TypedArchive) : List Val → Option (List Bool × TypedArchive)
  | [] => some ([], a)
  | v :: vs => (a.write heap v).bind fun r =>
    (writeAll r.2 vs).map fun q => (r.1 :: q.1, q.2)

def readAll (heap : Heap) (a : TypedArchive) : List Val → Option (List (Bool × Val) × TypedArchive)
  | [] => some ([], a)
  | v :: vs => (a.read heap v).bind fun r =>
    (readAll r.2.2.1 r.2.2.2 vs).map fun q => ((r.1, r.2.1) :: q.1, q.2)

end TypedArchive

def totalSize (fields : List Val) : ℕ := (fields.map Val.getSize).sum

/-- Whatever the memory holds, the fields come back as they were written. -/
def TypedRoundTrip (size : ℕ) (fields : List Val) : Prop :=
  ∀ heap buffer olds, List.Forall₂ Val.SameType olds fields →
    ∃ ws w rs r, TypedArchive.writeAll heap ⟨size, buffer, 0⟩ fields = some (ws, w) ∧
      TypedArchive.readAll heap ⟨size, w.buffer, 0⟩ olds = some (rs, r) ∧
      (∀ b ∈ ws, b = true) ∧ (∀ e ∈ rs, e.1 = true) ∧
      List.Forall₂ Val.Same (rs.map Prod.snd) fields ∧
      w.offset = totalSize fields ∧ r.offset = totalSize fields

/-- The field is no array, or one with a header of one byte. -/
def Val.Short : Val → Prop
  | .prim .. => True
  | .ywtBarray len _ => len < longLen

/-- The bytes of the field lie at `buf`. -/
def Val.At (m : Mem) (buf : ℕ) : Val → Prop
  | .prim t v => load m buf t.size = v.toNat
  | .ywtBarray len value => (m buf).toNat = len ∧ ∀ j, j < len → m (buf + 1 + j) = value j

namespace Val
variable {heap : Heap} {m m' : Mem} {buf : ℕ} {v old : Val}

theorem At.congr (hshort : v.Short) (h : v.At m buf)
    (hm : ∀ j, j < v.getSize → m' (buf + j) = m (buf + j)) : v.At m' buf := by
  cases v with
  | prim t x => exact (load_congr hm).trans h
  | ywtBarray len value =>
    have hlen : ¬ len ≥ longLen := Nat.not_le_of_lt hshort
    rw [getSize, if_neg hlen] at hm
    refine ⟨?_, fun j hj => ?_⟩
    · have hfirst := hm 0 (by omega)
      rw [Nat.add_zero] at hfirst
      rw [hfirst, h.1]
    · rw [Nat.add_assoc, hm (1 + j) (by omega), ← Nat.add_assoc, h.2 j hj]

theorem write_short (heap : Heap) (m : Mem) (buf : ℕ) (hshort : v.Short) :
    ∃ m', v.write heap m buf = some m' ∧ v.At m' buf ∧
      ∀ x, x < buf ∨ buf + v.getSize ≤ x → m' x = m x := by
  cases v with
  | prim t x =>
    refine ⟨_, rfl, ?_, fun y hy => ?_⟩
    · have hlt : x.toNat < 256 ^ t.size := by
        have := x.isLt
        rwa [pow_mul] at this
      rw [At, load_store, Nat.mod_eq_of_lt hlt]
    · rcases hy with hy | hy
      · exact store_of_lt hy
      · exact store_of_le hy
  | ywtBarray len value =>
    have hlen : ¬ len ≥ longLen := Nat.not_le_of_lt hshort
    refine ⟨_, if_neg hlen, ⟨?_, fun j hj => copy_at hj⟩, fun y hy => ?_⟩
    · have hlt : len < 250 := hshort
      rw [copy_of_lt (Nat.lt_succ_self buf), Function.update_self, UInt8.toNat_ofNat']
      omega
    · rw [getSize, if_neg hlen] at hy
      rcases hy with hy | hy
      · rw [copy_of_lt (by omega), Function.update_of_ne (by omega)]
      · rw [copy_of_le (by omega), Function.update_of_ne (by omega)]

theorem At.read (hshort : v.Short) (h : v.At m buf) (htype : old.SameType v) (heap : Heap) :
    ∃ v', old.read heap m buf = some (v', heap) ∧ v'.Same v := by
  cases v with
  | prim t x =>
    cases old with
    | prim t' x' =>
      obtain rfl : t' = t := htype
      refine ⟨_, rfl, ?_⟩
      have hload : load m buf t'.size = x.toNat := h
      have heq : BitVec.ofNat (8 * t'.size) (load m buf t'.size) = x := by
        rw [hload, BitVec.ofNat_toNat, BitVec.setWidth_eq]
      rw [heq]
      rfl
    | ywtBarray len value => cases htype
  | ywtBarray len value =>
    cases old with
    | prim t' x' => cases htype
    | ywtBarray len' value' =>
      have hlen : (m buf).toNat ≠ longLen := by
        rw [h.1]
        exact Nat.ne_of_lt hshort
      refine ⟨_, if_neg hlen, h.1, fun j hj => h.2 j (h.1 ▸ hj)⟩

theorem Same.getSize {v' : Val} (h : v'.Same v) : v'.getSize = v.getSize := by
  cases v with
  | prim t x =>
    cases v' with
    | prim t' x' =>
      have heq : t' = t := congrArg Sigma.fst h
      rw [Val.getSize, Val.getSize, heq]
    | ywtBarray len value => cases h
  | ywtBarray len value =>
    cases v' with
    | prim t' x' => cases h
    | ywtBarray len' value' => rw [Val.getSize, Val.getSize, h.1]

end Val

/-- The fields lie one behind the other. -/
def AllAt (m : Mem) : ℕ → List Val → Prop
  | _, [] => True
  | buf, v :: vs => v.At m buf ∧ AllAt m (buf + v.getSize) vs

namespace TypedArchive
variable {heap : Heap} {a : TypedArchive} {fields olds : List Val}

theorem totalSize_cons (v : Val) (vs : List Val) :
    totalSize (v :: vs) = v.getSize + totalSize vs := by
  rw [totalSize, List.map_cons, List.sum_cons]
  rfl

theorem writeAll_short (heap : Heap) (hshort : ∀ v ∈ fields, v.Short)
    (hfits : a.offset + totalSize fields ≤ a.size) :
    ∃ ws w, writeAll heap a fields = some (ws, w) ∧ (∀ b ∈ ws, b = true) ∧
      w.offset = a.offset + totalSize fields ∧ AllAt w.buffer a.offset fields ∧
      ∀ x, x < a.offset → w.buffer x = a.buffer x := by
  induction fields generalizing a with
  | nil => exact ⟨[], a, rfl, by simp, rfl, trivial, fun _ _ => rfl⟩
  | cons v vs ih =>
    rw [totalSize_cons] at hfits ⊢
    have hv := hshort v List.mem_cons_self
    obtain ⟨m, hwrite, hat, hother⟩ := Val.write_short heap a.buffer a.offset hv
    have hroom : ¬ a.offset + v.getSize > a.size := by omega
    obtain ⟨ws, w, hall, htrue, hoffset, hats, hkeep⟩ :=
      ih (a := { a with buffer := m, offset := a.offset + v.getSize })
        (fun u hu => hshort u (List.mem_cons_of_mem v hu)) (by simp only; omega)
    simp only at hoffset hats hkeep
    refine ⟨true :: ws, w, ?_, ?_, by omega, ⟨?_, hats⟩, fun x hx => ?_⟩
    · rw [writeAll, write, if_neg hroom, hwrite, Option.map_some, Option.bind_some, hall]
      rfl
    · simpa using htrue
    · refine hat.congr hv fun j hj => hkeep _ (by omega)
    · rw [hkeep x (by omega), hother x (.inl hx)]

theorem readAll_short (hshort : ∀ v ∈ fields, v.Short)
    (hfits : a.offset + totalSize fields ≤ a.size) (hat : AllAt a.buffer a.offset fields)
    (htypes : List.Forall₂ Val.SameType olds fields) (heap : Heap) :
    ∃ rs r, readAll heap a olds = some (rs, r) ∧ (∀ e ∈ rs, e.1 = true) ∧
      List.Forall₂ Val.Same (rs.map Prod.snd) fields ∧
      r.offset = a.offset + totalSize fields := by
  induction htypes generalizing a with
  | nil => exact ⟨[], a, rfl, by simp, .nil, rfl⟩
  | @cons old v olds vs htype htypes ih =>
    rw [totalSize_cons] at hfits ⊢
    obtain ⟨hv, hvs⟩ := hat
    obtain ⟨v', hread, hsame⟩ := hv.read (hshort v List.mem_cons_self) htype heap
    have hsize := hsame.getSize
    have hroom : ¬ a.offset + v'.getSize > a.size := by omega
    obtain ⟨rs, r, hall, htrue, hequal, hoffset⟩ :=
      ih (a := { a with offset := a.offset + v'.getSize })
        (fun u hu => hshort u (List.mem_cons_of_mem v hu)) (by simp only; omega)
        (by simpa only [hsize] using hvs)
    simp only at hoffset
    refine ⟨(true, v') :: rs, r, ?_, ?_, .cons hsame hequal, by omega⟩
    · rw [readAll, read, hread, Option.map_some, if_neg hroom, Option.bind_some]
      simp only [hall]
      rfl
    · simpa using htrue

/-- Without memory at low addresses, the length of a long array cannot be fetched. -/
theorem writeAll_long {len : ℕ} {value : ℕ → UInt8} (hmem : Val.ywtBarray len value ∈ fields)
    (hlong : longLen ≤ len) (hfits : a.offset + totalSize fields ≤ a.size) :
    writeAll (fun _ => none) a fields = none := by
  induction fields generalizing a with
  | nil => cases hmem
  | cons v vs ih =>
    rw [totalSize_cons] at hfits
    have hroom : ¬ a.offset + v.getSize > a.size := by omega
    rw [writeAll, write, if_neg hroom]
    rcases List.mem_cons.mp hmem with rfl | hmem
    · rw [Val.write, if_pos hlong]
      rfl
    · cases hwrite : v.write (fun _ => none) a.buffer a.offset with
      | none => rfl
      | some m =>
        rw [Option.map_some, Option.bind_some, ih hmem (by simp only; omega)]
        rfl

end TypedArchive

/-- Fields that fit are read back exactly when no array needs the long header. -/
theorem typedRoundTrip_iff {size : ℕ} {fields : List Val} (hfits : totalSize fields ≤ size) :
    TypedRoundTrip size fields ↔
      ∀ len value, Val.ywtBarray len value ∈ fields → len < longLen := by
  constructor
  · intro h len value hmem
    by_contra hlong
    have htypes : List.Forall₂ Val.SameType fields fields := by
      refine List.forall₂_same.mpr fun v _ => ?_
      cases v with
      | prim t x => exact rfl
      | ywtBarray len value => trivial
    obtain ⟨ws, w, rs, r, hwrite, -⟩ := h (fun _ => none) (fun _ => 0) fields htypes
    have hnone : TypedArchive.writeAll (fun _ => none) ⟨size, fun _ => 0, 0⟩ fields = none :=
      TypedArchive.writeAll_long hmem (Nat.le_of_not_lt hlong) (by simpa using hfits)
    rw [hnone] at hwrite
    cases hwrite
  · intro hshort heap buffer olds htypes
    have hshort' : ∀ v ∈ fields, v.Short := by
      intro v hv
      cases v with
      | prim t x => trivial
      | ywtBarray len value => exact hshort len value hv
    obtain ⟨ws, w, hwrite, hws, hoffset, hat, -⟩ :=
      TypedArchive.writeAll_short (a := ⟨size, buffer, 0⟩) heap hshort' (by simpa using hfits)
    obtain ⟨rs, r, hread, hrs, hsame, hoffset'⟩ :=
      TypedArchive.readAll_short (a := ⟨size, w.buffer, 0⟩) hshort' (by simpa using hfits) hat
        htypes heap
    simp only [Nat.zero_add] at hoffset hoffset'
    exact ⟨ws, w, rs, r, hwrite, hread, hws, hrs, hsame, hoffset, hoffset'⟩

theorem shortFields_roundTrip : TypedRoundTrip 40
    [.prim .ywtInt 0x1111, .ywtBarray 3 fun j => UInt8.ofNat j, .prim .ywtPtr 7, .ywtBarray 0 0] :=
  (typedRoundTrip_iff (by decide)).mpr fun len value hmem => by
    simp only [List.mem_cons, Val.ywtBarray.injEq, reduceCtorEq, List.not_mem_nil, or_false,
      false_or] at hmem
    rcases hmem with ⟨rfl, -⟩ | ⟨rfl, -⟩ <;> decide

/-- The first length with the long header; nothing is mapped at the address 250. -/
theorem longField_not_roundTrip : ¬ TypedRoundTrip 255 [.ywtBarray 250 0] := by
  intro h
  obtain ⟨ws, w, rs, r, hwrite, -⟩ :=
    h (fun _ => none) (fun _ => 0) [.ywtBarray 0 0] (.cons trivial .nil)
  have hnone : TypedArchive.writeAll (fun _ => none) ⟨255, fun _ => 0, 0⟩ [.ywtBarray 250 0] =
      none := TypedArchive.writeAll_long List.mem_cons_self (Nat.le_refl _) (by decide)
  rw [hnone] at hwrite
  cases hwrite

end YwStorage.Format

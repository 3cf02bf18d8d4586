import YwStorage.Lib.Bytes

/-!
Byte arrays with a length prefix (`ywbarray.h`) and the pairs of `ywkey.h`. A `Byte *` is the
sequence of bytes found from there on; lengths and sizes are 32-bit words.
-/
namespace YwStorage.Format
open Bytes

/-- `LONG_LEN`. -/
def longLen : ℕ := 250

/-- `ywBarray`. -/
structure Barray where
  len : ℕ
  value : ℕ → UInt8
  size : ℕ

namespace Barray
variable (b : Barray)

/-- `ywBarray(_len, _value)`. -/
def make (len : ℕ) (value : ℕ → UInt8) : Barray :=
  if len < longLen then ⟨len, value, (len + 1) % 2 ^ 32⟩ else ⟨len, value, (len + 5) % 2 ^ 32⟩

def read (m : Mem) (src : ℕ) : Barray :=
  if (m src).toNat = longLen then
    let len := ((m (src + 1)).toNat <<< 0 + (m (src + 2)).toNat <<< 8 +
      (m (src + 3)).toNat <<< 16 + (m (src + 4)).toNat <<< 24) % 2 ^ 32
    ⟨len, fun j => m (src + 5 + j), (5 + len) % 2 ^ 32⟩
  else
    let len := (m src).toNat
    ⟨len, fun j => m (src + 1 + j), (1 + len) % 2 ^ 32⟩

def write (m : Mem) (src : ℕ) : Mem :=
  if b.len < longLen then
    copy (Function.update m src (UInt8.ofNat b.len)) (src + 1) b.value b.len
  else
    let m := Function.update m src (UInt8.ofNat longLen)
    let m := Function.update m (src + 1) (UInt8.ofNat (b.len >>> 0 &&& 0xFF))
    let m := Function.update m (src + 2) (UInt8.ofNat (b.len >>> 8 &&& 0xFF))
    let m := Function.update m (src + 3) (UInt8.ofNat (b.len >>> 16 &&& 0xFF))
    let m := Function.update m (src + 4) (UInt8.ofNat (b.len >>> 24 &&& 0xFF))
    copy m (src + 5) b.value b.len

/-- The size as an `int32_t`. -/
def getSize : ℤ := Int.bmod b.size (2 ^ 32)

end Barray

/-- `ywKey<ywBarray, ywBarray>`. -/
structure Key where
  key : Barray
  val : Barray

namespace Key
variable (k : Key)

/-- `read` and `ywKey(src)`. -/
def read (m : Mem) (src : ℕ) : Key :=
  let key := Barray.read m src
  ⟨key, Barray.read m (src + key.getSize.toNat)⟩

def write (m : Mem) (src : ℕ) : Mem :=
  k.val.write (k.key.write m src) (src + k.key.getSize.toNat)

/-- The sum of two `int32_t`, which wraps around. -/
def getSize : ℤ := Int.bmod (k.key.getSize + k.val.getSize) (2 ^ 32)

end Key

/-- `w` puts down `n` bytes, always the same ones, and nothing else. -/
def Writes (w : Mem → ℕ → Mem) (n : ℤ) : Prop :=
  ∃ bytes : ℕ → UInt8, ∀ m src,
    (∀ j : ℕ, j < n → w m src (src + j) = bytes j) ∧
    ∀ x : ℕ, x < src ∨ src + n ≤ x → w m src x = m x

namespace Barray

/-- Equal length, size and bytes. -/
def Same (b b' : Barray) : Prop :=
  b.len = b'.len ∧ b.size = b'.size ∧ ∀ j, j < b.len → b.value j = b'.value j

/-- The bytes that `write` puts down. -/
def encoding (b : Barray) : List UInt8 :=
  (List.range b.size).map fun j => b.write (fun _ => 0) 0 j

def headerSize (len : ℕ) : ℕ := if len < longLen then 1 else 5

/-- The `j`-th byte of the encoding. -/
def byte (b : Barray) (j : ℕ) : UInt8 :=
  if j = 0 then UInt8.ofNat (min b.len longLen)
  else if j < headerSize b.len then UInt8.ofNat (b.len / 256 ^ (j - 1))
  else b.value (j - headerSize b.len)

section Make
variable {len : ℕ} {value : ℕ → UInt8}

@[simp] theorem make_len : (make len value).len = len := by
  unfold make
  split <;> rfl

@[simp] theorem make_value : (make len value).value = value := by
  unfold make
  split <;> rfl

theorem make_size (h : len < 2 ^ 31 - 5) : (make len value).size = headerSize len + len := by
  unfold make headerSize
  split <;> simp only <;> omega

theorem make_getSize (h : len < 2 ^ 31 - 5) :
    (make len value).getSize = (make len value).size := by
  have hsize : (make len value).size = headerSize len + len := make_size h
  have hheader : headerSize len ≤ 5 := by
    unfold headerSize
    split <;> omega
  unfold getSize
  rw [hsize, Int.bmod_eq_of_le] <;> omega

end Make

theorem ofNat_and_mask (n : ℕ) : UInt8.ofNat (n &&& 0xFF) = UInt8.ofNat n := by
  refine UInt8.toNat_inj.mp ?_
  rw [UInt8.toNat_ofNat', UInt8.toNat_ofNat', show 0xFF = 2 ^ 8 - 1 from rfl,
    Nat.and_two_pow_sub_one_eq_mod, Nat.mod_mod]

/-- The header, and the bytes behind it. -/
theorem write_eq (b : Barray) (m : Mem) (src : ℕ) : ∃ m', b.write m src =
    copy m' (src + headerSize b.len) b.value b.len ∧
    (∀ j, j < headerSize b.len → m' (src + j) = b.byte j) ∧
    ∀ x, x < src ∨ src + headerSize b.len ≤ x → m' x = m x := by
  unfold write byte headerSize
  by_cases h : b.len < longLen
  · rw [if_pos h, if_pos h]
    refine ⟨_, rfl, fun j hj => ?_, fun x hx => ?_⟩
    · obtain rfl : j = 0 := by omega
      rw [Nat.add_zero, Function.update_self, if_pos rfl, Nat.min_eq_left (Nat.le_of_lt h)]
    · rw [Function.update_of_ne (by omega)]
  · rw [if_neg h, if_neg h]
    refine ⟨_, rfl, fun j hj => ?_, fun x hx => ?_⟩
    · simp only [ofNat_and_mask, Nat.shiftRight_eq_div_pow]
      have hj' : j = 0 ∨ j = 1 ∨ j = 2 ∨ j = 3 ∨ j = 4 := by omega
      rcases hj' with rfl | rfl | rfl | rfl | rfl
      · simp [Function.update, Nat.min_eq_right (Nat.le_of_not_lt h)]
      · simp [Function.update]
      · simp [Function.update]
      · simp [Function.update]
      · simp [Function.update]
    · rw [Function.update_of_ne (by omega), Function.update_of_ne (by omega),
        Function.update_of_ne (by omega), Function.update_of_ne (by omega),
        Function.update_of_ne (by omega)]

variable {b : Barray} {m : Mem} {src : ℕ}

theorem write_at {j : ℕ} (hj : j < headerSize b.len + b.len) :
    b.write m src (src + j) = b.byte j := by
  obtain ⟨m', heq, hheader, -⟩ := b.write_eq m src
  rw [heq]
  by_cases h : j < headerSize b.len
  · rw [copy_of_lt (by omega), hheader j h]
  · have hpos : 0 < headerSize b.len := by
      unfold headerSize
      split <;> omega
    have hoff : src + j = src + headerSize b.len + (j - headerSize b.len) := by omega
    rw [hoff, copy_at (by omega), byte, if_neg (by omega), if_neg h]

theorem write_other {x : ℕ} (hx : x < src ∨ src + (headerSize b.len + b.len) ≤ x) :
    b.write m src x = m x := by
  obtain ⟨m', heq, -, hother⟩ := b.write_eq m src
  rw [heq]
  rcases hx with hx | hx
  · rw [copy_of_lt (by omega), hother x (.inl hx)]
  · rw [copy_of_le (by omega), hother x (.inr (by omega))]

/-- What is read depends on the bytes of the encoding only. -/
theorem read_eq {len : ℕ} {value : ℕ → UInt8} (hlen : len < 2 ^ 31 - 5)
    (h : ∀ j, j < headerSize len + len → m (src + j) = (make len value).byte j) :
    (read m src).Same (make len value) := by
  have hsize : (make len value).size = headerSize len + len := make_size hlen
  have hpos : 0 < headerSize len := by
    unfold headerSize
    split <;> omega
  have hfirst : (m src).toNat = min len longLen := by
    have := h 0 (by omega)
    rw [Nat.add_zero, byte, if_pos rfl, make_len] at this
    rw [this, UInt8.toNat_ofNat']
    have : longLen = 250 := rfl
    omega
  have hvalue : ∀ j, j < len → m (src + headerSize len + j) = value j := by
    intro j hj
    have := h (headerSize len + j) (by omega)
    rw [byte, make_len, make_value, if_neg (by omega), if_neg (by omega),
      Nat.add_sub_cancel_left] at this
    rw [Nat.add_assoc, this]
  unfold Same
  rw [hsize, make_len, make_value]
  unfold headerSize at hvalue h ⊢
  by_cases hshort : len < longLen
  · have hne : (m src).toNat ≠ longLen := by omega
    have hlen' : (m src).toNat = len := by omega
    rw [if_pos hshort] at hvalue ⊢
    rw [read, if_neg hne]
    refine ⟨hlen', ?_, fun j hj => hvalue j (by simpa only [hlen'] using hj)⟩
    simp only [hlen']
    omega
  · have hlong : (m src).toNat = longLen := by omega
    rw [if_neg hshort] at hvalue h ⊢
    have hbyte : ∀ j, 1 ≤ j → j < 5 → (m (src + j)).toNat = len / 256 ^ (j - 1) % 256 := by
      intro j hj hj'
      have := h j (by omega)
      rw [byte, if_neg (by omega), make_len, headerSize, if_neg hshort, if_pos hj'] at this
      rw [this, UInt8.toNat_ofNat']
    have hlen' : ((m (src + 1)).toNat <<< 0 + (m (src + 2)).toNat <<< 8 +
        (m (src + 3)).toNat <<< 16 + (m (src + 4)).toNat <<< 24) % 2 ^ 32 = len := by
      rw [hbyte 1 (by omega) (by omega), hbyte 2 (by omega) (by omega),
        hbyte 3 (by omega) (by omega), hbyte 4 (by omega) (by omega)]
      simp only [Nat.shiftLeft_eq]
      omega
    rw [read, if_pos hlong]
    simp only [hlen']
    exact ⟨trivial, by omega, hvalue⟩

theorem Same.symm {b' : Barray} (h : b.Same b') : b'.Same b :=
  ⟨h.1.symm, h.2.1.symm, fun j hj => (h.2.2 j (h.1 ▸ hj)).symm⟩

theorem Same.trans {b' b'' : Barray} (h : b.Same b') (h' : b'.Same b'') : b.Same b'' :=
  ⟨h.1.trans h'.1, h.2.1.trans h'.2.1, fun j hj => (h.2.2 j hj).trans (h'.2.2 j (h.1 ▸ hj))⟩

theorem writes {len : ℕ} {value : ℕ → UInt8} (hlen : len < 2 ^ 31 - 5) :
    Writes (make len value).write (make len value).getSize := by
  refine ⟨(make len value).byte, fun m src => ⟨fun j hj => write_at ?_, fun x hx => write_other ?_⟩⟩
  · rw [make_getSize hlen, make_size hlen] at hj
    rw [make_len]
    omega
  · rw [make_getSize hlen, make_size hlen] at hx
    rw [make_len]
    omega

/-- Encodings of which one begins with the other belong to the same array. -/
theorem same_of_prefix {len len' : ℕ} {value value' : ℕ → UInt8} (hlen : len < 2 ^ 31 - 5)
    (hlen' : len' < 2 ^ 31 - 5)
    (h : (make len value).encoding <+: (make len' value').encoding) :
    (make len value).Same (make len' value') := by
  have hsize : (make len value).size = headerSize len + len := make_size hlen
  have hsize' : (make len' value').size = headerSize len' + len' := make_size hlen'
  have hle := h.length_le
  rw [encoding, encoding, List.length_map, List.length_map, List.length_range, List.length_range,
    hsize, hsize'] at hle
  have hread' : (read ((make len' value').write (fun _ => 0) 0) 0).Same (make len' value') :=
    read_eq hlen' fun j hj => write_at (by rwa [make_len])
  refine Same.trans (Same.symm (read_eq hlen fun j hj => ?_)) hread'
  have hin : j < (make len value).encoding.length := by
    rwa [encoding, List.length_map, List.length_range, hsize]
  have hget := h.getElem hin
  simp only [encoding, List.getElem_map, List.getElem_range] at hget
  rw [Nat.zero_add, ← hget]
  have hat : (make len value).write (fun _ => 0) 0 (0 + j) = (make len value).byte j :=
    write_at (by rwa [make_len])
  rwa [Nat.zero_add] at hat

end Barray

/-- What one expects of the arrays `k` and `v`, of their encodings and of the pair. -/
structure RoundTrips (k v : Barray) : Prop where
  writes : Writes k.write k.getSize
  read : ∀ m src m', (∀ j : ℕ, j < k.getSize → m' (src + j) = k.write m src (src + j)) →
    (Barray.read m' src).Same k
  prefixFree : ¬ k.Same v → ¬ k.encoding <+: v.encoding ∧ ¬ v.encoding <+: k.encoding
  pair : ∀ m src, ((Key.read ((Key.mk k v).write m src) src).key.Same k) ∧
    (Key.read ((Key.mk k v).write m src) src).val.Same v
  pairWrites : Writes (Key.mk k v).write (Key.mk k v).getSize

section Pair
variable {klen vlen : ℕ} {kvalue vvalue : ℕ → UInt8} (hk : klen < 2 ^ 31 - 5)
  (hv : vlen < 2 ^ 31 - 5)
include hk hv

omit hv in
/-- The second array lies behind the first. -/
theorem Key.write_eq (m : Mem) (src : ℕ) :
    (Key.mk (.make klen kvalue) (.make vlen vvalue)).write m src =
      (Barray.make vlen vvalue).write ((Barray.make klen kvalue).write m src)
        (src + (Barray.headerSize klen + klen)) := by
  rw [Key.write, Barray.make_getSize hk, Barray.make_size hk]
  rfl

theorem Key.read_write (m : Mem) (src : ℕ) :
    (Key.read ((Key.mk (.make klen kvalue) (.make vlen vvalue)).write m src) src).key.Same
      (.make klen kvalue) ∧
    (Key.read ((Key.mk (.make klen kvalue) (.make vlen vvalue)).write m src) src).val.Same
      (.make vlen vvalue) := by
  rw [Key.write_eq hk]
  have hkey : (Barray.read ((Barray.make vlen vvalue).write ((Barray.make klen kvalue).write m src)
      (src + (Barray.headerSize klen + klen))) src).Same (.make klen kvalue) := by
    refine Barray.read_eq hk fun j hj => ?_
    rw [Barray.write_other (.inl (by omega)), Barray.write_at (by rwa [Barray.make_len])]
  refine ⟨hkey, ?_⟩
  rw [Key.read]
  have hoff : (Barray.read ((Barray.make vlen vvalue).write
      ((Barray.make klen kvalue).write m src) (src + (Barray.headerSize klen + klen))) src).getSize
      = (Barray.make klen kvalue).getSize := by
    unfold Barray.getSize
    rw [hkey.2.1]
  simp only [hoff, Barray.make_getSize hk, Barray.make_size hk, Int.toNat_natCast]
  exact Barray.read_eq hv fun j hj => Barray.write_at (by rwa [Barray.make_len])

theorem Key.writes
    (hsum : (Barray.make klen kvalue).size + (Barray.make vlen vvalue).size < 2 ^ 31) :
    Writes (Key.mk (.make klen kvalue) (.make vlen vvalue)).write
      (Key.mk (.make klen kvalue) (.make vlen vvalue)).getSize := by
  have hsize : (Key.mk (.make klen kvalue) (.make vlen vvalue)).getSize =
      ((Barray.headerSize klen + klen) + (Barray.headerSize vlen + vlen) : ℕ) := by
    rw [Key.getSize, Barray.make_getSize hk, Barray.make_getSize hv]
    rw [Barray.make_size hk, Barray.make_size hv] at hsum ⊢
    rw [Int.bmod_eq_of_le] <;> omega
  rw [hsize]
  refine ⟨fun j => if j < Barray.headerSize klen + klen then (Barray.make klen kvalue).byte j
    else (Barray.make vlen vvalue).byte (j - (Barray.headerSize klen + klen)), fun m src => ?_⟩
  rw [Key.write_eq hk]
  constructor
  · intro j hj
    dsimp only
    by_cases h : j < Barray.headerSize klen + klen
    · rw [if_pos h, Barray.write_other (.inl (by omega)),
        Barray.write_at (by rwa [Barray.make_len])]
    · have hoff : src + j = src + (Barray.headerSize klen + klen) +
          (j - (Barray.headerSize klen + klen)) := by omega
      rw [if_neg h, hoff, Barray.write_at (by rw [Barray.make_len]; omega)]
  · intro x hx
    rw [Barray.write_other (by rw [Barray.make_len]; omega),
      Barray.write_other (by rw [Barray.make_len]; omega)]

/-- A size that has become negative does not count the bytes written. -/
theorem Key.not_writes
    (hsum : 2 ^ 31 ≤ (Barray.make klen kvalue).size + (Barray.make vlen vvalue).size) :
    ¬ Writes (Key.mk (.make klen kvalue) (.make vlen vvalue)).write
      (Key.mk (.make klen kvalue) (.make vlen vvalue)).getSize := by
  rintro ⟨bytes, h⟩
  have hneg : (Key.mk (.make klen kvalue) (.make vlen vvalue)).getSize < 0 := by
    rw [Key.getSize, Barray.make_getSize hk, Barray.make_getSize hv]
    have hkheader : Barray.headerSize klen ≤ 5 := by
      unfold Barray.headerSize
      split <;> omega
    have hvheader : Barray.headerSize vlen ≤ 5 := by
      unfold Barray.headerSize
      split <;> omega
    rw [Barray.make_size hk, Barray.make_size hv] at hsum ⊢
    rw [Int.bmod_def]
    split <;> omega
  -- the first byte of the key is written whatever was there before
  have hsame : ∀ m : Mem, (Barray.make klen kvalue).byte 0 = m 0 := by
    intro m
    rw [← (h m 0).2 0 (.inr (by omega)), Key.write_eq hk]
    have hpos : 0 < Barray.headerSize klen + klen := by
      unfold Barray.headerSize
      split <;> omega
    rw [Barray.write_other (.inl (by omega))]
    exact (Barray.write_at (by rwa [Barray.make_len])).symm
  have hzero := (hsame fun _ => 0).symm.trans (hsame fun _ => 1)
  exact absurd hzero (by decide)

end Pair

/-- Arrays and pairs are read back as they were written, unless the pair is as long as an `int32_t`
cannot count. -/
theorem roundTrips_iff {klen vlen : ℕ} (kvalue vvalue : ℕ → UInt8) (hk : klen < 2 ^ 31 - 5)
    (hv : vlen < 2 ^ 31 - 5) :
    RoundTrips (.make klen kvalue) (.make vlen vvalue) ↔
      (Barray.make klen kvalue).size + (Barray.make vlen vvalue).size < 2 ^ 31 := by
  constructor
  · intro h
    by_contra hsum
    exact Key.not_writes hk hv (Nat.le_of_not_lt hsum) h.pairWrites
  · intro hsum
    refine ⟨Barray.writes hk, fun m src m' h => ?_, fun hne => ⟨fun h => ?_, fun h => ?_⟩,
      Key.read_write hk hv, Key.writes hk hv hsum⟩
    · refine Barray.read_eq hk fun j hj => ?_
      rw [h j (by rw [Barray.make_getSize hk, Barray.make_size hk]; omega),
        Barray.write_at (by rwa [Barray.make_len])]
    · exact hne (Barray.same_of_prefix hk hv h)
    · exact hne (Barray.same_of_prefix hv hk h).symm

theorem roundTrips_short : RoundTrips (.make 3 fun _ => 7) (.make 250 fun j => UInt8.ofNat j) :=
  (roundTrips_iff _ _ (by decide) (by decide)).mpr (by decide)

/-- Two arrays of a gigabyte each. -/
theorem gigabytes_not_roundTrips :
    ¬ RoundTrips (.make (2 ^ 30) fun _ => 0) (.make (2 ^ 30) fun _ => 0) := by
  intro h
  refine Key.not_writes ?_ ?_ ?_ h.pairWrites <;> decide

end YwStorage.Format

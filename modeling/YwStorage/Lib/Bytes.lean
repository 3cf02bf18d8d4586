import Mathlib

/-! Byte memories: little-endian words, and records that are read byte by byte. -/
namespace Bytes

abbrev Mem := ℕ → UInt8

/-- The word of `n` bytes at `off`. -/
def load (m : Mem) (off : ℕ) : ℕ → ℕ
  | 0 => 0
  | n + 1 => (m off).toNat + 256 * load m (off + 1) n

def store (m : Mem) (off : ℕ) : ℕ → ℕ → Mem
  | 0, _ => m
  | n + 1, v => Function.update (store m (off + 1) n (v / 256)) off (UInt8.ofNat v)

section Word
variable {m m' : Mem} {off n v x : ℕ}

theorem load_lt (m : Mem) (off n : ℕ) : load m off n < 256 ^ n := by
  induction n generalizing off with
  | zero => simp [load]
  | succ n ih =>
    have hword := ih (off + 1)
    have hbyte := (m off).toNat_lt
    rw [load, pow_succ]
    omega

theorem load_congr (h : ∀ i, i < n → m' (off + i) = m (off + i)) :
    load m' off n = load m off n := by
  induction n generalizing off with
  | zero => rfl
  | succ n ih =>
    have hrest : load m' (off + 1) n = load m (off + 1) n := ih fun i hi => by
      have := h (i + 1) (by omega)
      rwa [show off + (i + 1) = off + 1 + i by omega] at this
    have hfirst : m' off = m off := h 0 (by omega)
    rw [load, load, hrest, hfirst]

theorem store_of_lt (h : x < off) : store m off n v x = m x := by
  induction n generalizing off v with
  | zero => rfl
  | succ n ih =>
    rw [store, Function.update_of_ne (by omega)]
    exact ih (by omega)

theorem store_of_le (h : off + n ≤ x) : store m off n v x = m x := by
  induction n generalizing off v with
  | zero => rfl
  | succ n ih =>
    rw [store, Function.update_of_ne (by omega)]
    exact ih (by omega)

theorem load_store (m : Mem) (off n v : ℕ) : load (store m off n v) off n = v % 256 ^ n := by
  induction n generalizing off v with
  | zero => simp [load, Nat.mod_one]
  | succ n ih =>
    have hrest : load (store m off (n + 1) v) (off + 1) n = v / 256 % 256 ^ n := by
      rw [← ih (off + 1) (v / 256)]
      refine load_congr fun i _ => ?_
      rw [store, Function.update_of_ne (by omega)]
    have hfirst : (store m off (n + 1) v off).toNat = v % 256 := by
      rw [store, Function.update_self, UInt8.toNat_ofNat']
    rw [load, hrest, hfirst, pow_succ', Nat.mod_mul]

/-- `memcpy` of `n` bytes to `off`. -/
def copy (m : Mem) (off : ℕ) (src : ℕ → UInt8) (n : ℕ) : Mem := fun x =>
  if off ≤ x ∧ x < off + n then src (x - off) else m x

section Copy
variable {src : ℕ → UInt8}

theorem copy_at {j : ℕ} (h : j < n) : copy m off src n (off + j) = src j := by
  rw [copy, if_pos (by omega), Nat.add_sub_cancel_left]

theorem copy_of_lt (h : x < off) : copy m off src n x = m x := by
  rw [copy, if_neg (by omega)]

theorem copy_of_le (h : off + n ≤ x) : copy m off src n x = m x := by
  rw [copy, if_neg (by omega)]

end Copy
end Word

/-- `memcmp` of the `n` bytes from `i` on: the difference of the first two bytes that differ. -/
def memcmp (x y : ℕ → UInt8) : ℕ → ℕ → ℤ
  | _, 0 => 0
  | i, n + 1 => if x i = y i then memcmp x y (i + 1) n else ((x i).toNat : ℤ) - (y i).toNat

section Memcmp
variable {x y z : ℕ → UInt8} {i n k : ℕ}

theorem memcmp_swap (x y : ℕ → UInt8) (i n : ℕ) : memcmp y x i n = -memcmp x y i n := by
  induction n generalizing i with
  | zero => rfl
  | succ n ih =>
    by_cases heq : x i = y i
    · rw [memcmp, memcmp, if_pos heq, if_pos heq.symm, ih]
    · rw [memcmp, memcmp, if_neg heq, if_neg (Ne.symm heq)]
      omega

/-- The first string is below the second one at their first difference. -/
theorem memcmp_neg_iff :
    memcmp x y i n < 0 ↔ ∃ j, i ≤ j ∧ j < i + n ∧ (x j).toNat < (y j).toNat ∧
      ∀ k, i ≤ k → k < j → x k = y k := by
  induction n generalizing i with
  | zero => exact ⟨fun h => absurd h (lt_irrefl 0), fun ⟨j, hij, hj, _⟩ => by omega⟩
  | succ n ih =>
    by_cases heq : x i = y i
    · rw [memcmp, if_pos heq, ih]
      constructor
      · rintro ⟨j, hij, hj, hlt, hsame⟩
        refine ⟨j, by omega, by omega, hlt, fun k hik hkj => ?_⟩
        rcases Nat.eq_or_lt_of_le hik with rfl | hik
        · exact heq
        · exact hsame k hik hkj
      · rintro ⟨j, hij, hj, hlt, hsame⟩
        have hne : i ≠ j := by
          rintro rfl
          exact absurd (heq ▸ hlt) (Nat.lt_irrefl _)
        exact ⟨j, by omega, by omega, hlt, fun k hik hkj => hsame k (by omega) hkj⟩
    · rw [memcmp, if_neg heq, sub_neg, Nat.cast_lt]
      constructor
      · exact fun hlt => ⟨i, le_rfl, by omega, hlt, fun k hik hki => by omega⟩
      · rintro ⟨j, hij, hj, hlt, hsame⟩
        rcases Nat.eq_or_lt_of_le hij with rfl | hij
        · exact hlt
        · exact absurd (hsame i le_rfl hij) heq

theorem memcmp_eq_zero_iff : memcmp x y i n = 0 ↔ ∀ j, i ≤ j → j < i + n → x j = y j := by
  induction n generalizing i with
  | zero => exact ⟨fun _ j hij hj => by omega, fun _ => rfl⟩
  | succ n ih =>
    by_cases heq : x i = y i
    · rw [memcmp, if_pos heq, ih]
      refine ⟨fun h j hij hj => ?_, fun h j hij hj => h j (by omega) (by omega)⟩
      rcases Nat.eq_or_lt_of_le hij with rfl | hij
      · exact heq
      · exact h j hij (by omega)
    · rw [memcmp, if_neg heq, sub_eq_zero, Nat.cast_inj, UInt8.toNat_inj]
      exact ⟨fun h => absurd h heq, fun h => h i le_rfl (by omega)⟩

/-- Of two first differences the earlier one decides. -/
theorem memcmp_trans {l m : ℕ} (hxy : memcmp x y 0 (min l m) < 0)
    (hyz : memcmp y z 0 (min m n) < 0) : memcmp x z 0 (min l n) < 0 := by
  obtain ⟨i, -, hi, hxi, hxsame⟩ := memcmp_neg_iff.mp hxy
  obtain ⟨j, -, hj, hyj, hysame⟩ := memcmp_neg_iff.mp hyz
  refine memcmp_neg_iff.mpr ⟨min i j, Nat.zero_le _, by omega, ?_, fun k hk hlt => ?_⟩
  · rcases Nat.lt_trichotomy i j with hlt | rfl | hgt
    · rw [Nat.min_eq_left hlt.le, ← hysame i (Nat.zero_le i) hlt]
      exact hxi
    · rw [Nat.min_self]
      exact hxi.trans hyj
    · rw [Nat.min_eq_right hgt.le, hxsame j (Nat.zero_le j) hgt]
      exact hyj
  · exact (hxsame k hk (by omega)).trans (hysame k hk (by omega))

end Memcmp

/-- A reader of consecutive bytes; each byte read decides how to go on. -/
inductive Decoder (κ : Type*)
  | done (v : κ)
  | next (k : UInt8 → Decoder κ)

/-- What the decoder makes of the bytes from `i` on. -/
def Decoder.run {κ : Type*} (f : ℕ → UInt8) : ℕ → Decoder κ → κ
  | _, .done v => v
  | i, .next k => Decoder.run f (i + 1) (k (f i))

def Decoder.map {κ ι : Type*} (g : κ → ι) : Decoder κ → Decoder ι
  | .done v => .done (g v)
  | .next k => .next fun b => (k b).map g

theorem Decoder.run_map {κ ι : Type*} (g : κ → ι) (f : ℕ → UInt8) (i : ℕ) (t : Decoder κ) :
    (t.map g).run f i = g (t.run f i) := by
  induction t generalizing i with
  | done v => rfl
  | next k ih => exact ih (f i) (i + 1)

/-- Reads the word of `n` bytes. -/
def Decoder.word : ℕ → Decoder ℕ
  | 0 => .done 0
  | n + 1 => .next fun b => (Decoder.word n).map fun v => b.toNat + 256 * v

theorem Decoder.run_word (m : Mem) (i n : ℕ) : (Decoder.word n).run m i = load m i n := by
  induction n generalizing i with
  | zero => rfl
  | succ n ih => rw [Decoder.word, Decoder.run, Decoder.run_map, ih, load]

/-- The bytes of a word determine it. -/
theorem load_bytes {m : Mem} {i n v : ℕ} (h : ∀ j, j < n → m (i + j) = UInt8.ofNat (v / 256 ^ j)) :
    load m i n = v % 256 ^ n := by
  induction n generalizing i v with
  | zero => simp [load, Nat.mod_one]
  | succ n ih =>
    have hfirst : m i = UInt8.ofNat v := by simpa using h 0 (by omega)
    have hrest : load m (i + 1) n = v / 256 % 256 ^ n := ih fun j hj => by
      rw [Nat.add_assoc, Nat.add_comm 1 j, h (j + 1) (by omega), pow_succ', Nat.div_div_eq_div_mul]
    rw [load, hrest, hfirst, UInt8.toNat_ofNat', pow_succ' 256 n, Nat.mod_mul]

/-- A record type: `decode` gets back what `write` has put down. -/
structure Codec (κ : Type*) where
  size : κ → ℕ
  write : κ → ℕ → UInt8
  decode : Decoder κ
  decode_write : ∀ f v, (∀ j, j < size v → f j = write v j) → decode.run f 0 = v

namespace Codec
variable {κ : Type*} (d : Codec κ) {m m' : Mem} {off x : ℕ} {v : κ}

/-- The record at `off`. -/
def load (m : Mem) (off : ℕ) : κ := d.decode.run (fun j => m (off + j)) 0

def store (m : Mem) (off : ℕ) (v : κ) : Mem := fun x =>
  if off ≤ x ∧ x < off + d.size v then d.write v (x - off) else m x

/-- The bytes at `off` are those of `v`. -/
def At (m : Mem) (off : ℕ) (v : κ) : Prop := ∀ j, j < d.size v → m (off + j) = d.write v j

variable {d}

theorem At.load (h : d.At m off v) : d.load m off = v := d.decode_write _ v h

theorem At.congr (h : d.At m off v) (hm : ∀ j, j < d.size v → m' (off + j) = m (off + j)) :
    d.At m' off v := fun j hj => (hm j hj).trans (h j hj)

theorem at_store (m : Mem) (off : ℕ) (v : κ) : d.At (d.store m off v) off v := by
  intro j hj
  rw [store, if_pos (by omega), Nat.add_sub_cancel_left]

theorem store_of_lt (h : x < off) : d.store m off v x = m x := by
  rw [store, if_neg (by omega)]

theorem store_of_le (h : off + d.size v ≤ x) : d.store m off v x = m x := by
  rw [store, if_neg (by omega)]

end Codec
end Bytes

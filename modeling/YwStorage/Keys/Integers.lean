import YwStorage.OrderedNode.Compared

/-!
Integer keys (`ywtypes.h`). Both comparisons are the difference of the values, cut to 32 bits: the
sign is that of the distance between the values only as long as the cut does not change it.
-/
namespace YwStorage.Keys
open Bytes OrderedNode

/-- `ywInt::compare`. -/
def intCompare (val right : Int32) : Int32 := right - val

/-- `ywLong::compare`, which cuts the difference to an `int32_t`. -/
def longCompare (val right : Int64) : Int32 := (right - val).toInt32

/-- `ywInt::read` and `ywInt::write`. -/
def intCodec : Codec Int32 where
  size _ := 4
  write v j := UInt8.ofNat (v.toBitVec.toNat / 256 ^ j)
  decode := (Decoder.word 4).map fun n => Int32.ofBitVec (BitVec.ofNat 32 n)
  decode_write f v h := by
    rw [Decoder.run_map, Decoder.run_word, load_bytes fun j hj => by rw [Nat.zero_add, h j hj]]
    exact Int32.toBitVec_inj.mp (BitVec.eq_of_toNat_eq (by simpa using v.toBitVec.isLt))

/-- `ywLong::read` and `ywLong::write`. -/
def longCodec : Codec Int64 where
  size _ := 8
  write v j := UInt8.ofNat (v.toBitVec.toNat / 256 ^ j)
  decode := (Decoder.word 8).map fun n => Int64.ofBitVec (BitVec.ofNat 64 n)
  decode_write f v h := by
    rw [Decoder.run_map, Decoder.run_word, load_bytes fun j hj => by rw [Nat.zero_add, h j hj]]
    exact Int64.toBitVec_inj.mp (BitVec.eq_of_toNat_eq (by simpa using v.toBitVec.isLt))

section Order
variable {κ : Type*} (compare : κ → κ → Int32) (val : κ → ℤ)

/-- `compare` gives the numeric order of two values. -/
structure Agrees (a b : κ) : Prop where
  pos : 0 < compare a b ↔ val a < val b
  zero : compare a b = 0 ↔ val a = val b
  neg : compare a b < 0 ↔ val b < val a

/-- The values `vs` are ordered numerically, and so is every page that they are inserted into. -/
structure Numeric (d : Codec κ) (vs : List κ) : Prop where
  agrees : ∀ a ∈ vs, ∀ b ∈ vs, Agrees compare val a b
  ordered : ∀ (c : Config) (p₀ p : Page),
    Lts.Run (Page.InsertStep c d compare) (p₀.clear c) vs p →
      (p.contents c d).Perm vs ∧ ((p.contents c d).Pairwise fun x y => val x ≤ val y) ∧
      ∀ v ∈ vs, ∃ i : ℕ, p.searchBy c d compare v = i ∧ i < p.count ∧ p.get c d i = v

end Order

/-- The distance from `a` to `b` and its low 32 bits have the same sign. -/
def Near (a b : ℤ) : Prop :=
  b - a = 0 ∨ 0 < b - a ∧ 0 < (b - a) % 2 ^ 32 ∧ (b - a) % 2 ^ 32 < 2 ^ 31 ∨
    b - a < 0 ∧ 2 ^ 31 ≤ (b - a) % 2 ^ 32

section Laws
variable {κ : Type*} {compare : κ → κ → Int32} {val : κ → ℤ} {d : Codec κ} {a b : κ} {vs : List κ}

theorem agrees_iff_of_bmod (h : (compare a b).toInt = (val b - val a).bmod (2 ^ 32)) :
    Agrees compare val a b ↔ Near (val a) (val b) := by
  have hpos : 0 < compare a b ↔ 0 < (compare a b).toInt := Int32.lt_iff_toInt_lt
  have hneg : compare a b < 0 ↔ (compare a b).toInt < 0 := Int32.lt_iff_toInt_lt
  have hzero : compare a b = 0 ↔ (compare a b).toInt = 0 := Int32.toInt_inj.symm
  rw [h, Int.bmod_def] at hpos hneg hzero
  unfold Near
  constructor
  · rintro ⟨h₁, h₂, h₃⟩
    rw [hpos] at h₁
    rw [hzero] at h₂
    rw [hneg] at h₃
    split at h₁ <;> omega
  · intro hnear
    refine ⟨hpos.trans ?_, hzero.trans ?_, hneg.trans ?_⟩ <;> split <;> omega

theorem numeric_of_agrees (hval : Function.Injective val) (hsize : ∀ v, d.size v < 256)
    (h : ∀ a ∈ vs, ∀ b ∈ vs, Agrees compare val a b) : Numeric compare val d vs := by
  refine ⟨h, fun c p₀ p hrun => ?_⟩
  have hfit : ∀ v, d.size v < 256 ^ c.slotSize := fun v =>
    (hsize v).trans_le (Nat.le_self_pow c.slotSize_pos.ne' 256)
  have hpos : ∀ v ∈ vs, ∀ x ∈ vs, 0 < compare v x ↔ val v < val x := fun v hv x hx =>
    (h v hv x hx).pos
  have hold := (Page.holding_clear c d val p₀).run hfit (by simpa using hpos) hrun
  rw [List.nil_append] at hold
  refine ⟨?_, ?_, fun v hv => ?_⟩
  · obtain ⟨a, rs, habs, -, hperm⟩ := hold
    rwa [habs.contents_eq]
  · obtain ⟨a, rs, habs, hs, -⟩ := hold
    rwa [habs.contents_eq]
  · obtain ⟨i, hi, hlt, hkey⟩ := hold.searchBy_found hpos hv
    exact ⟨i, hi, hlt, hval hkey⟩

end Laws

theorem intCompare_agrees_iff (a b : Int32) : Agrees intCompare Int32.toInt a b ↔
    -2 ^ 31 ≤ b.toInt - a.toInt ∧ b.toInt - a.toInt < 2 ^ 31 := by
  have hbmod : (intCompare a b).toInt = (b.toInt - a.toInt).bmod (2 ^ 32) := Int32.toInt_sub b a
  rw [agrees_iff_of_bmod hbmod, Near]
  have ha := a.toInt_lt
  have ha' := a.le_toInt
  have hb := b.toInt_lt
  have hb' := b.le_toInt
  omega

theorem longCompare_agrees_iff (a b : Int64) :
    Agrees longCompare Int64.toInt a b ↔ Near a.toInt b.toInt := by
  refine agrees_iff_of_bmod ?_
  rw [longCompare, Int64.toInt_toInt32, Int64.toInt_sub]
  exact Int.bmod_bmod_of_dvd (by decide)

/-- A set of integer keys is kept in numeric order exactly if the distances between its values
survive the cut to 32 bits. -/
theorem integer_keys_numeric_iff (ints : List Int32) (longs : List Int64) :
    (Numeric intCompare Int32.toInt intCodec ints ↔
      ∀ a ∈ ints, ∀ b ∈ ints, -2 ^ 31 ≤ b.toInt - a.toInt ∧ b.toInt - a.toInt < 2 ^ 31) ∧
    (Numeric longCompare Int64.toInt longCodec longs ↔
      ∀ a ∈ longs, ∀ b ∈ longs, Near a.toInt b.toInt) := by
  refine ⟨⟨fun h a ha b hb => ?_, fun h => ?_⟩, fun h a ha b hb => ?_, fun h => ?_⟩
  · exact (intCompare_agrees_iff a b).mp (h.agrees a ha b hb)
  · exact numeric_of_agrees (fun _ _ => Int32.toInt_inj.mp) (fun _ => show 4 < 256 by decide)
      fun a ha b hb => (intCompare_agrees_iff a b).mpr (h a ha b hb)
  · exact (longCompare_agrees_iff a b).mp (h.agrees a ha b hb)
  · exact numeric_of_agrees (fun _ _ => Int64.toInt_inj.mp) (fun _ => show 8 < 256 by decide)
      fun a ha b hb => (longCompare_agrees_iff a b).mpr (h a ha b hb)

/-- Of -2^31 and 1 the smaller one is taken for the larger one, and 0 and 2^32 for one key. -/
theorem far_keys_misordered :
    intCompare (-2 ^ 31) 1 < 0 ∧ Int32.toInt (-2 ^ 31) < Int32.toInt 1 ∧
      longCompare 0 (2 ^ 32) = 0 ∧ Int64.toInt 0 ≠ Int64.toInt (2 ^ 32) := by
  decide

end YwStorage.Keys

import OrionServe.Core
import OrionServe.Lib.Binary32
import OrionServe.Lib.Chunks
import OrionServe.Lib.Slices

/-!
# Weight quantization

Values are quantized in groups of `groupSize`, each with a scale and a zero
point of its own; the integers of all groups are packed into bytes, and
unpacked and cut into the same groups to restore the values. `f32` values are
rationals here, a cast to `i32` stops at the ends of its range, and `i32`
sums and differences wrap around.

The values are restored within half a step of their group exactly when no
group that is not constant has a value more than `2 ^ 31 - 1 / 2` steps from
zero (`quantize_within_half_step_iff`): beyond that the zero point, or the
integer it is added to, is cut off by the cast.
-/

open Binary32

/-! ## Bit patterns -/

namespace F32

/-- `f32::from_bits`. -/
def fromBits (w : UInt32) : F32 :=
  let m := w.toNat % 2 ^ 31
  if m / 2 ^ 23 = 255 then
    if m % 2 ^ 23 = 0 then (if w.toNat < 2 ^ 31 then .inf else .negInf) else .nan
  else .finite ((if w.toNat < 2 ^ 31 then 1 else -1) * (units m / 2 ^ 149))

/-- `f32::to_bits` of a finite number, zero having no sign. -/
def toBits (q : ℚ) : UInt32 :=
  UInt32.ofNat ((if q < 0 then 2 ^ 31 else 0) + pattern (|q| * 2 ^ 149).num.natAbs)

/-- The number is one that a bit pattern gives. -/
def IsSingle (v : F32) : Prop := ∃ w, fromBits w = v

/-- `f32::MAX`. -/
def largest : ℚ := (2 ^ 24 - 1) * 2 ^ 104

theorem fromBits_eq_finite {w : UInt32} {q : ℚ} (h : fromBits w = .finite q) :
    w.toNat % 2 ^ 31 / 2 ^ 23 < 255
      ∧ q = (if w.toNat < 2 ^ 31 then 1 else -1) * (units (w.toNat % 2 ^ 31) / 2 ^ 149) := by
  have hlt := w.toNat_lt
  unfold fromBits at h
  simp only at h
  split at h
  · split at h
    · split at h <;> exact absurd h nofun
    · exact absurd h nofun
  · exact ⟨by omega, (F32.finite.inj h).symm⟩

theorem abs_eq_units {w : UInt32} {q : ℚ} (h : fromBits w = .finite q) :
    |q| = units (w.toNat % 2 ^ 31) / 2 ^ 149 := by
  obtain ⟨-, rfl⟩ := fromBits_eq_finite h
  have hnonneg : (0 : ℚ) ≤ units (w.toNat % 2 ^ 31) / 2 ^ 149 := by positivity
  split
  · rw [one_mul, abs_of_nonneg hnonneg]
  · rw [neg_one_mul, abs_neg, abs_of_nonneg hnonneg]

/-- **A finite number comes back from its bits.** -/
theorem fromBits_toBits {q : ℚ} (h : IsSingle (.finite q)) : fromBits (toBits q) = .finite q := by
  obtain ⟨w, hw⟩ := h
  obtain ⟨hexp, hq⟩ := fromBits_eq_finite hw
  have hunits : (|q| * 2 ^ 149).num.natAbs = units (w.toNat % 2 ^ 31) := by
    rw [abs_eq_units hw, div_mul_cancel₀ _ (by positivity)]
    exact congrArg Int.natAbs (Rat.num_natCast _)
  have hm : w.toNat % 2 ^ 31 < 2 ^ 31 := Nat.mod_lt _ (by positivity)
  have hbits : (toBits q).toNat = (if q < 0 then 2 ^ 31 else 0) + w.toNat % 2 ^ 31 := by
    rw [toBits, hunits, pattern_units, UInt32.toNat_ofNat', Nat.mod_eq_of_lt]
    split <;> omega
  have hlow : (toBits q).toNat % 2 ^ 31 = w.toNat % 2 ^ 31 := by
    rw [hbits]
    split <;> omega
  rw [fromBits]
  simp only [hlow]
  rw [if_neg (by omega)]
  refine congrArg F32.finite (Eq.trans ?_ hq.symm)
  by_cases hneg : q < 0
  · have hsign : ¬ w.toNat < 2 ^ 31 := by
      intro hlt
      rw [hq, if_pos hlt, one_mul] at hneg
      exact absurd hneg (not_lt.mpr (by positivity))
    rw [if_neg (by rw [hbits, if_pos hneg]; omega), if_neg hsign]
  · rw [if_pos (by rw [hbits, if_neg hneg]; omega)]
    split
    · rfl
    · next hsign =>
      -- only zero has a sign and is not negative
      rw [hq, if_neg hsign, neg_one_mul, neg_lt_zero, not_lt] at hneg
      have hzero : (units (w.toNat % 2 ^ 31) / 2 ^ 149 : ℚ) = 0 :=
        le_antisymm hneg (by positivity)
      rw [hzero, mul_zero, mul_zero]

theorem abs_le_largest {q : ℚ} (h : IsSingle (.finite q)) : |q| ≤ largest := by
  obtain ⟨w, hw⟩ := h
  obtain ⟨hexp, -⟩ := fromBits_eq_finite hw
  have hunits : units (w.toNat % 2 ^ 31) ≤ (2 ^ 24 - 1) * 2 ^ 253 := by
    have hmod := Nat.mod_lt (w.toNat % 2 ^ 31) (Nat.two_pow_pos 23)
    unfold units
    split
    · omega
    · exact Nat.mul_le_mul (by omega) (Nat.pow_le_pow_right (by omega) (by omega))
  rw [abs_eq_units hw, div_le_iff₀ (by positivity), largest]
  calc (units (w.toNat % 2 ^ 31) : ℚ) ≤ ((2 ^ 24 - 1) * 2 ^ 253 : ℕ) := Nat.cast_le.mpr hunits
    _ = (2 ^ 24 - 1) * 2 ^ 104 * 2 ^ 149 := by norm_num

end F32

/-! ## Quantizing and restoring -/

namespace Quantization

/-- Elements sharing one scale factor. -/
def groupSize : ℕ := 128

/-- Quantization width. -/
inductive QuantBits where
  | int8
  | int4
  deriving DecidableEq

namespace QuantBits

def bits : QuantBits → ℕ
  | int8 => 8
  | int4 => 4

/-- Number of representable levels. -/
def levels (b : QuantBits) : Int32 := 1 <<< Int32.ofNat b.bits

/-- Highest representable unsigned value. -/
def maxValue (b : QuantBits) : Int32 := b.levels - 1

theorem maxValue_bounds (b : QuantBits) : 0 < b.maxValue.toInt ∧ b.maxValue.toInt ≤ 255 := by
  cases b <;> decide

end QuantBits

/-- A group-wise quantized tensor. -/
structure QuantizedTensor where
  /-- Packed quantized values. For INT4, two values per byte. -/
  data : List UInt8
  /-- One scale per group. -/
  scales : List ℚ
  /-- One zero-point per group, for asymmetric quantization. -/
  zeroPoints : List Int32
  numElements : ℕ
  bits : QuantBits

/-- `i32::clamp`. -/
def clamp (x lo hi : Int32) : Int32 := if x < lo then lo else if hi < x then hi else x

/-- The smallest and the largest value of a group. -/
def bounds (group : List F32) : ℚ × ℚ :=
  group.foldl (fun b v => (min b.1 v.value, max b.2 v.value)) (F32.largest, -F32.largest)

/-- The range of a group. -/
def range (group : List F32) : ℚ := (bounds group).2 - (bounds group).1

/-- The scale a group is quantized with. -/
def scaleOf (bits : QuantBits) (group : List F32) : ℚ :=
  if 0 < range group then range group / bits.maxValue.toInt else 1

/-- The zero point a group is quantized with. -/
def zeroPointOf (bits : QuantBits) (group : List F32) : Int32 :=
  if 0 < range group then
    Int32.ofIntClamp (roundAway (-(bounds group).1 / scaleOf bits group))
  else 0

/-- The integer for a value of a group. -/
def levelOf (bits : QuantBits) (group : List F32) (v : F32) : Int32 :=
  if 0 < range group then
    clamp (Int32.ofIntClamp (roundAway (v.value / scaleOf bits group)) + zeroPointOf bits group)
      0 bits.maxValue
  else 0

/-- One group: its integers, and the scale and the zero point to store. For a
constant group the zero point is the bit pattern of the constant. -/
def quantizeGroup (bits : QuantBits) (group : List F32) :
    Except EngineError (List Int32 × ℚ × Int32) :=
  match group.find? (fun v => !v.isFinite) with
  | some bad => .error (.internal
      ["cannot quantize a group containing a non-finite value (", .float bad, ")"])
  | none => .ok (group.map (levelOf bits group),
      if 0 < range group then scaleOf bits group else 0,
      if 0 < range group then zeroPointOf bits group
      else (F32.toBits (bounds group).1).toInt32)

/-- `v as u8` for an `i32`. -/
def asU8 (v : Int32) : UInt8 := v.toUInt32.toUInt8

/-- `b as i32` for a `u8`. -/
def asI32 (b : UInt8) : Int32 := b.toUInt32.toInt32

/-- Two values per byte, low nibble first. -/
def packNibbles : List Int32 → List UInt8
  | [] => []
  | [lo] => [(asU8 lo &&& (0x0F : UInt8)) ||| ((0 : UInt8) <<< 4)]
  | lo :: hi :: rest =>
    ((asU8 lo &&& (0x0F : UInt8)) ||| ((asU8 hi &&& (0x0F : UInt8)) <<< 4)) :: packNibbles rest

/-- Packs quantized integers into bytes. -/
def pack (values : List Int32) : QuantBits → List UInt8
  | .int8 => values.map asU8
  | .int4 => packNibbles values

/-- The loop over the bytes, with what it has pushed. -/
def unpackNibbles (count : ℕ) : List UInt8 → List Int32 → List Int32
  | [], out => out
  | byte :: rest, out =>
    let low := out ++ [asI32 (byte &&& (0x0F : UInt8))]
    let both := if low.length < count then low ++ [asI32 (byte >>> 4)] else low
    if count ≤ both.length then both else unpackNibbles count rest both

/-- Unpacks bytes back into quantized integers. -/
def unpack (data : List UInt8) (bits : QuantBits) (count : ℕ) : List Int32 :=
  match bits with
  | .int8 => (data.take count).map asI32
  | .int4 => unpackNibbles count data []

/-- Quantizes values group-wise. -/
def quantize (values : List F32) (bits : QuantBits) : Except EngineError QuantizedTensor :=
  if values.isEmpty then .ok ⟨[], [], [], 0, bits⟩
  else do
    let groups ← (values.chunks groupSize).mapM (quantizeGroup bits)
    return ⟨pack (groups.flatMap (·.1)) bits, groups.map (·.2.1), groups.map (·.2.2),
      values.length, bits⟩

/-- The values of one group. A scale of zero marks a constant group. -/
def dequantizeGroup (scale : ℚ) (zeroPoint : Int32) (group : List Int32) : List F32 :=
  if scale = 0 then List.replicate group.length (F32.fromBits zeroPoint.toUInt32)
  else group.map (fun q => .finite ((q - zeroPoint).toInt * scale))

/-- Reconstructs the values from a quantized tensor. -/
def dequantize (tensor : QuantizedTensor) : List F32 :=
  (((unpack tensor.data tensor.bits tensor.numElements).chunks groupSize).zipIdx.map
    (fun e => dequantizeGroup (tensor.scales.getD e.2 1) (tensor.zeroPoints.getD e.2 0)
      e.1)).flatten

/-! ## Packing -/

theorem asI32_asU8 {v : Int32} (h : 0 ≤ v.toInt) (hv : v.toInt ≤ 255) : asI32 (asU8 v) = v := by
  have hn : v.toBitVec.toNat ≤ 255 := by
    rw [Int32.toInt, BitVec.toInt_eq_toNat_cond] at h hv
    split at h <;> omega
  refine Int32.toBitVec_inj.mp (BitVec.eq_of_toNat_eq ?_)
  simp only [asI32, asU8, UInt32.toBitVec_toInt32, UInt8.toBitVec_toUInt32,
    UInt32.toBitVec_toUInt8, Int32.toBitVec_toUInt32, BitVec.toNat_setWidth]
  omega

theorem low_nibble (a b : UInt8) :
    ((a &&& (0x0F : UInt8)) ||| ((b &&& (0x0F : UInt8)) <<< 4)) &&& (0x0F : UInt8)
      = a &&& (0x0F : UInt8) := by
  refine UInt8.toBitVec_inj.mp ?_
  ext i hi
  simp
  interval_cases i <;> simp

theorem high_nibble (a b : UInt8) :
    ((a &&& (0x0F : UInt8)) ||| ((b &&& (0x0F : UInt8)) <<< 4)) >>> 4 = b &&& (0x0F : UInt8) := by
  refine UInt8.toBitVec_inj.mp ?_
  ext i hi
  simp
  interval_cases i <;> simp

/-- A nibble holds a value below sixteen. -/
theorem asI32_nibble {v : Int32} (h : 0 ≤ v.toInt) (hv : v.toInt ≤ 15) :
    asI32 (asU8 v &&& (0x0F : UInt8)) = v := by
  have hn : v.toBitVec.toNat ≤ 15 := by
    rw [Int32.toInt, BitVec.toInt_eq_toNat_cond] at h hv
    split at h <;> omega
  refine Int32.toBitVec_inj.mp (BitVec.eq_of_toNat_eq ?_)
  have hand : v.toBitVec.toNat % 256 &&& 15 = v.toBitVec.toNat % 256 % 16 :=
    Nat.and_two_pow_sub_one_eq_mod _ 4
  simp only [asI32, asU8, UInt32.toBitVec_toInt32, UInt8.toBitVec_toUInt32, UInt8.toBitVec_and,
    UInt32.toBitVec_toUInt8, Int32.toBitVec_toUInt32, BitVec.toNat_setWidth, BitVec.toNat_and]
  show (v.toBitVec.toNat % 256 &&& 15) % 2 ^ 32 = v.toBitVec.toNat
  rw [hand]
  omega

/-- **The loop pushes what was packed**, the last high nibble of an odd number
excepted. -/
theorem unpackNibbles_packNibbles {count : ℕ} (values : List Int32)
    (hvalues : ∀ v ∈ values, 0 ≤ v.toInt ∧ v.toInt ≤ 15) (out : List Int32)
    (hcount : out.length + values.length = count) :
    unpackNibbles count (packNibbles values) out = out ++ values := by
  induction values using packNibbles.induct generalizing out with
  | case1 => rw [packNibbles, unpackNibbles, List.append_nil]
  | case2 lo =>
    have hlo := hvalues lo List.mem_cons_self
    rw [List.length_singleton] at hcount
    have hbyte : asI32 (((asU8 lo &&& (0x0F : UInt8)) ||| ((0 : UInt8) <<< 4)) &&& (0x0F : UInt8))
        = lo := by
      have := low_nibble (asU8 lo) 0
      rw [UInt8.zero_and] at this
      rw [this, asI32_nibble hlo.1 hlo.2]
    have hlast : ¬ (out ++ [lo]).length < count := by
      rw [List.length_append, List.length_singleton]
      omega
    simp only [packNibbles, unpackNibbles, hbyte, if_neg hlast, if_pos (not_lt.mp hlast)]
  | case3 lo hi rest ih =>
    have hlo := hvalues lo List.mem_cons_self
    have hhi := hvalues hi (List.mem_cons_of_mem _ List.mem_cons_self)
    rw [List.length_cons, List.length_cons] at hcount
    have hmore : (out ++ [lo]).length < count := by
      rw [List.length_append, List.length_singleton]
      omega
    simp only [packNibbles, unpackNibbles, low_nibble, high_nibble, asI32_nibble hlo.1 hlo.2,
      asI32_nibble hhi.1 hhi.2, if_pos hmore]
    have hlen : (out ++ [lo] ++ [hi]).length = out.length + 2 := by simp
    split
    · next hfull =>
      have hnil : rest = [] := by
        rw [← List.length_eq_zero_iff]
        omega
      rw [hnil, List.append_assoc]
      rfl
    · rw [ih (fun v hv => hvalues v (List.mem_cons_of_mem _ (List.mem_cons_of_mem _ hv))) _
        (by omega), List.append_assoc, List.append_assoc]
      rfl

/-- **What is packed is unpacked**, an odd number of nibbles included. -/
theorem unpack_pack {bits : QuantBits} {values : List Int32}
    (hvalues : ∀ v ∈ values, 0 ≤ v.toInt ∧ v.toInt ≤ bits.maxValue.toInt) :
    unpack (pack values bits) bits values.length = values := by
  cases bits with
  | int8 =>
    rw [pack, unpack, List.take_of_length_le (by rw [List.length_map]), List.map_map]
    refine (List.map_congr_left (fun v hv => ?_)).trans (List.map_id _)
    exact asI32_asU8 (hvalues v hv).1 (hvalues v hv).2
  | int4 => exact unpackNibbles_packNibbles values hvalues [] (Nat.zero_add _)

/-! ## One step of a group -/

theorem toInt_clamp (x : Int32) {hi : Int32} (h : 0 ≤ hi.toInt) :
    (clamp x 0 hi).toInt = max 0 (min x.toInt hi.toInt) := by
  unfold clamp
  split
  · next hlt =>
    rw [Int32.lt_iff_toInt_lt, Int32.toInt_zero] at hlt
    rw [Int32.toInt_zero]
    omega
  · next hge =>
    rw [Int32.lt_iff_toInt_lt, Int32.toInt_zero] at hge
    split
    · next hlt =>
      rw [Int32.lt_iff_toInt_lt] at hlt
      omega
    · next hle =>
      rw [Int32.lt_iff_toInt_lt] at hle
      omega

section Steps

variable {a b : ℚ} {A Z M x : Int32}

/-- **A level is as near to its value as the two roundings are**: `a` is the
value and `-b` the smallest one of the group, in steps. If the sum of the
roundings is one too small or too large, so that it is cut off, then the value
is at that end of the range. -/
theorem level_near (hM : 0 < M.toInt) (hM' : M.toInt ≤ 255) (ha : |a - A.toInt| ≤ 1 / 2)
    (hb : |b - Z.toInt| ≤ 1 / 2) (hsum : 0 ≤ a + b) (hsum' : a + b ≤ M.toInt)
    (htop : M.toInt - b ≤ 2 ^ 31 - 1 / 2) :
    |a - (clamp (A + Z) 0 M - Z).toInt| ≤ 1 / 2 := by
  rw [abs_le] at ha hb ⊢
  have hA := A.toInt_lt
  have hA' := A.le_toInt
  have hZ := Z.toInt_lt
  have hlow : -1 ≤ A.toInt + Z.toInt := by
    have : ((-1 : ℤ) : ℚ) ≤ ((A.toInt + Z.toInt : ℤ) : ℚ) := by
      push_cast
      linarith
    exact_mod_cast this
  have hhigh : A.toInt + Z.toInt ≤ M.toInt + 1 := by
    have : ((A.toInt + Z.toInt : ℤ) : ℚ) ≤ ((M.toInt + 1 : ℤ) : ℚ) := by
      push_cast
      linarith
    exact_mod_cast this
  have hZlow : M.toInt - 2 ^ 31 ≤ Z.toInt := by
    have : ((M.toInt - 2 ^ 31 : ℤ) : ℚ) ≤ (Z.toInt : ℚ) := by
      push_cast
      linarith
    exact_mod_cast this
  have hadd : (A + Z).toInt = A.toInt + Z.toInt := by
    rw [Int32.toInt_add, Int.bmod_eq_of_le (by omega) (by omega)]
  have hclamp := toInt_clamp (A + Z) hM.le
  rw [hadd] at hclamp
  have hsub : (clamp (A + Z) 0 M - Z).toInt
      = max 0 (min (A.toInt + Z.toInt) M.toInt) - Z.toInt := by
    rw [Int32.toInt_sub, hclamp, Int.bmod_eq_of_le (by omega) (by omega)]
  rw [hsub]
  rcases lt_or_ge (A.toInt + Z.toInt) 0 with hneg | hnonneg
  · have hd : max 0 (min (A.toInt + Z.toInt) M.toInt) - Z.toInt = A.toInt + 1 := by omega
    have hZeq : (Z.toInt : ℚ) = -1 - A.toInt := by
      have : Z.toInt = -1 - A.toInt := by omega
      exact_mod_cast this
    rw [hd]
    push_cast
    constructor <;> linarith
  · rcases le_or_gt (A.toInt + Z.toInt) M.toInt with hle | hgt
    · have hd : max 0 (min (A.toInt + Z.toInt) M.toInt) - Z.toInt = A.toInt := by omega
      rw [hd]
      exact ha
    · have hd : max 0 (min (A.toInt + Z.toInt) M.toInt) - Z.toInt = A.toInt - 1 := by omega
      have hZeq : (Z.toInt : ℚ) = M.toInt + 1 - A.toInt := by
        have : Z.toInt = M.toInt + 1 - A.toInt := by omega
        exact_mod_cast this
      rw [hd]
      push_cast
      constructor <;> linarith

/-- What an integer is near to is not far beyond the largest one. -/
theorem le_of_near (h : |a - x.toInt| ≤ 1 / 2) : a ≤ 2 ^ 31 - 1 / 2 := by
  have hx : (x.toInt : ℚ) ≤ ((2 ^ 31 - 1 : ℤ) : ℚ) := by
    exact_mod_cast (by have := x.toInt_lt; omega : x.toInt ≤ 2 ^ 31 - 1)
  push_cast at hx
  have := (abs_le.mp h).2
  linarith

/-- Nor is the zero point, if the smallest value is restored. -/
theorem zeroPoint_le_of_near (hM : 0 < M.toInt) (hM' : M.toInt ≤ 255)
    (h : |-b - (clamp x 0 M - Int32.ofIntClamp (roundAway b)).toInt| ≤ 1 / 2) :
    b ≤ 2 ^ 31 - 1 / 2 := by
  by_contra hlarge
  rw [not_le] at hlarge
  have hround : 2 ^ 31 ≤ roundAway b := by
    have hnear := (abs_le.mp (abs_sub_roundAway_le b)).2
    have : ((2 ^ 31 - 1 : ℤ) : ℚ) < roundAway b := by
      push_cast
      linarith
    have : 2 ^ 31 - 1 < roundAway b := by exact_mod_cast this
    omega
  have hZ : (Int32.ofIntClamp (roundAway b)).toInt = 2 ^ 31 - 1 := by
    rw [Int32.toInt_ofIntClamp_eq]
    omega
  have hclamp := toInt_clamp x hM.le
  have hsub : -(2 ^ 31 - 1) ≤ (clamp x 0 M - Int32.ofIntClamp (roundAway b)).toInt := by
    rw [Int32.toInt_sub, hclamp, hZ, Int.bmod_eq_of_le (by omega) (by omega)]
    omega
  have hsub : ((-(2 ^ 31 - 1) : ℤ) : ℚ)
      ≤ (clamp x 0 M - Int32.ofIntClamp (roundAway b)).toInt := by exact_mod_cast hsub
  push_cast at hsub
  have := (abs_le.mp h).1
  linarith

end Steps

/-! ## The bounds of a group -/

theorem foldl_bounds (group : List F32) (b : ℚ × ℚ) :
    let r := group.foldl (fun b v => (min b.1 v.value, max b.2 v.value)) b
    (r.1 ≤ b.1 ∧ b.2 ≤ r.2) ∧ (∀ v ∈ group, r.1 ≤ v.value ∧ v.value ≤ r.2)
      ∧ (r.1 = b.1 ∨ ∃ v ∈ group, v.value = r.1) ∧ (r.2 = b.2 ∨ ∃ v ∈ group, v.value = r.2) := by
  induction group generalizing b with
  | nil => simp
  | cons u group ih =>
    obtain ⟨⟨hlow, hhigh⟩, hall, hmin, hmax⟩ := ih (min b.1 u.value, max b.2 u.value)
    rw [List.foldl_cons]
    refine ⟨⟨hlow.trans (min_le_left _ _), (le_max_left _ _).trans hhigh⟩, ?_, ?_, ?_⟩
    · intro v hv
      rcases List.mem_cons.mp hv with rfl | hv
      · exact ⟨hlow.trans (min_le_right _ _), (le_max_right _ _).trans hhigh⟩
      · exact hall v hv
    · rcases hmin with heq | ⟨v, hv, heq⟩
      · rcases min_choice b.1 u.value with h | h
        · exact Or.inl (heq.trans h)
        · exact Or.inr ⟨u, List.mem_cons_self, (heq.trans h).symm⟩
      · exact Or.inr ⟨v, List.mem_cons_of_mem _ hv, heq⟩
    · rcases hmax with heq | ⟨v, hv, heq⟩
      · rcases max_choice b.2 u.value with h | h
        · exact Or.inl (heq.trans h)
        · exact Or.inr ⟨u, List.mem_cons_self, (heq.trans h).symm⟩
      · exact Or.inr ⟨v, List.mem_cons_of_mem _ hv, heq⟩

/-- The values are finite numbers of single precision. -/
def Singles (values : List F32) : Prop := ∀ v ∈ values, v.isFinite = true ∧ v.IsSingle

variable {group : List F32} {bits : QuantBits}

theorem Singles.finite (h : Singles group) {v : F32} (hv : v ∈ group) :
    v = .finite v.value ∧ F32.IsSingle (.finite v.value) := by
  obtain ⟨hfin, hsingle⟩ := h v hv
  cases v with
  | finite q => exact ⟨rfl, hsingle⟩
  | _ => exact absurd hfin Bool.false_ne_true

/-- **The bounds are values of the group**, and all of it lies between them. -/
theorem bounds_spec (h : Singles group) (hne : group ≠ []) :
    (∃ v ∈ group, v.value = (bounds group).1) ∧ (∃ v ∈ group, v.value = (bounds group).2)
      ∧ ∀ v ∈ group, (bounds group).1 ≤ v.value ∧ v.value ≤ (bounds group).2 := by
  obtain ⟨-, hall, hmin, hmax⟩ := foldl_bounds group (F32.largest, -F32.largest)
  obtain ⟨u, hu⟩ := List.exists_mem_of_ne_nil _ hne
  have hlargest := abs_le.mp (F32.abs_le_largest (h.finite hu).2)
  refine ⟨?_, ?_, hall⟩
  · exact hmin.elim (fun heq => ⟨u, hu, le_antisymm (hlargest.2.trans heq.ge) (hall u hu).1⟩) id
  · exact hmax.elim (fun heq => ⟨u, hu, le_antisymm (hall u hu).2 (heq.le.trans hlargest.1)⟩) id

theorem range_pos_iff (h : Singles group) (hne : group ≠ []) :
    0 < range group ↔ ¬ ∀ u ∈ group, ∀ v ∈ group, u = v := by
  obtain ⟨⟨u, hu, hmin⟩, ⟨v, hv, hmax⟩, hall⟩ := bounds_spec h hne
  rw [range, sub_pos, ← hmin, ← hmax]
  constructor
  · intro hlt hconst
    rw [hconst u hu v hv] at hlt
    exact absurd hlt (lt_irrefl _)
  · intro hdiffer
    by_contra hge
    refine hdiffer (fun x hx y hy => ?_)
    have heq : ∀ z ∈ group, z.value = u.value := fun z hz =>
      le_antisymm ((hall z hz).2.trans (hmax.ge.trans (not_lt.mp hge)))
        (hmin.le.trans (hall z hz).1)
    rw [(h.finite hx).1, (h.finite hy).1, heq x hx, heq y hy]

/-! ## The round trip -/

/-- The scale that is stored for a group. -/
def storedScale (bits : QuantBits) (group : List F32) : ℚ :=
  if 0 < range group then scaleOf bits group else 0

/-- The zero point that is stored for a group. -/
def storedZeroPoint (bits : QuantBits) (group : List F32) : Int32 :=
  if 0 < range group then zeroPointOf bits group else (F32.toBits (bounds group).1).toInt32

/-- What a group is restored to. -/
def restored (bits : QuantBits) (group : List F32) : List F32 :=
  dequantizeGroup (storedScale bits group) (storedZeroPoint bits group)
    (group.map (levelOf bits group))

theorem maxValue_pos (bits : QuantBits) : (0 : ℚ) < bits.maxValue.toInt :=
  Int.cast_pos.mpr bits.maxValue_bounds.1

theorem scaleOf_pos (bits : QuantBits) (group : List F32) : 0 < scaleOf bits group := by
  unfold scaleOf
  split
  · next h => exact div_pos h (maxValue_pos bits)
  · exact one_pos

@[simp] theorem length_restored (bits : QuantBits) (group : List F32) :
    (restored bits group).length = group.length := by
  unfold restored dequantizeGroup
  split
  · rw [List.length_replicate, List.length_map]
  · rw [List.length_map, List.length_map]

/-- **A constant group is restored exactly.** -/
theorem restored_of_constant (h : Singles group) (hconst : ∀ u ∈ group, ∀ v ∈ group, u = v) :
    restored bits group = group := by
  rcases eq_or_ne group [] with rfl | hne
  · exact List.eq_nil_of_length_eq_zero (length_restored bits [])
  · have hrange : ¬ 0 < range group := fun hpos => (range_pos_iff h hne).mp hpos hconst
    obtain ⟨⟨u, hu, hmin⟩, -⟩ := bounds_spec h hne
    have hbits : F32.fromBits (F32.toBits (bounds group).1) = u := by
      rw [← hmin, F32.fromBits_toBits (h.finite hu).2, ← (h.finite hu).1]
    rw [restored, storedScale, storedZeroPoint, if_neg hrange, if_neg hrange, dequantizeGroup,
      if_pos rfl, UInt32.toUInt32_toInt32, hbits, List.length_map]
    exact (List.eq_replicate_iff.mpr ⟨rfl, fun v hv => hconst v hv u hu⟩).symm

theorem restored_of_range_pos (hrange : 0 < range group) :
    restored bits group = group.map (fun v =>
      .finite ((levelOf bits group v - zeroPointOf bits group).toInt * scaleOf bits group)) := by
  rw [restored, storedScale, storedZeroPoint, if_pos hrange, if_pos hrange, dequantizeGroup,
    if_neg (scaleOf_pos bits group).ne', List.map_map]
  rfl

theorem abs_sub_mul_le_iff {v d s : ℚ} (hs : 0 < s) :
    |v - d * s| ≤ s / 2 ↔ |v / s - d| ≤ 1 / 2 := by
  have hfactor : v - d * s = (v / s - d) * s := by
    rw [sub_mul, div_mul_cancel₀ _ hs.ne']
  rw [hfactor, abs_mul, abs_of_pos hs, ← le_div_iff₀ hs]
  have : s / 2 / s = 1 / 2 := by
    field_simp
  rw [this]

/-- **When a group is restored within half a step**: no value is more than
`2 ^ 31 - 1 / 2` steps from zero. -/
theorem levels_near_iff (h : Singles group) (hrange : 0 < range group) :
    (∀ v ∈ group, |v.value - (levelOf bits group v - zeroPointOf bits group).toInt
        * scaleOf bits group| ≤ scaleOf bits group / 2)
      ↔ ∀ v ∈ group, |v.value / scaleOf bits group| ≤ 2 ^ 31 - 1 / 2 := by
  have hne : group ≠ [] := by
    rintro rfl
    rw [range, bounds, List.foldl_nil, F32.largest] at hrange
    norm_num at hrange
  obtain ⟨⟨u, hu, hmin⟩, ⟨w, hw, hmax⟩, hall⟩ := bounds_spec h hne
  obtain ⟨hM, hM'⟩ := bits.maxValue_bounds
  have hs := scaleOf_pos bits group
  have hlevel : ∀ v, levelOf bits group v = clamp
      (Int32.ofIntClamp (roundAway (v.value / scaleOf bits group)) + zeroPointOf bits group) 0
      bits.maxValue := fun v => if_pos hrange
  have hzero : zeroPointOf bits group
      = Int32.ofIntClamp (roundAway (-(bounds group).1 / scaleOf bits group)) := if_pos hrange
  -- the range is `maxValue` steps
  have hsteps : (bounds group).2 / scaleOf bits group - (bounds group).1 / scaleOf bits group
      = bits.maxValue.toInt := by
    rw [← sub_div, scaleOf, if_pos hrange]
    show range group / (range group / bits.maxValue.toInt) = _
    exact div_div_cancel₀ hrange.ne'
  simp only [abs_sub_mul_le_iff hs, hlevel]
  have hrounded : ∀ q : ℚ, |q| ≤ 2 ^ 31 - 1 / 2
      → |q - (Int32.ofIntClamp (roundAway q)).toInt| ≤ 1 / 2 :=
    fun q hq => Int32.abs_sub_ofIntClamp_le (abs_sub_roundAway_le q) hq
  have hneg : -(bounds group).1 / scaleOf bits group = -((bounds group).1 / scaleOf bits group) :=
    neg_div _ _
  constructor
  · intro hnear v hv
    -- the largest and the smallest value are restored
    have htop := le_of_near (hnear w hw)
    have hlow := hnear u hu
    rw [hmin, ← neg_neg ((bounds group).1 / scaleOf bits group), ← hneg, hzero] at hlow
    have hlow := zeroPoint_le_of_near hM hM' hlow
    have h1 := (div_le_div_iff_of_pos_right hs).mpr (hall v hv).1
    have h2 := (div_le_div_iff_of_pos_right hs).mpr (hall v hv).2
    rw [hmax] at htop
    rw [hneg] at hlow
    rw [abs_le]
    constructor <;> linarith
  · intro hfits v hv
    have h1 := (div_le_div_iff_of_pos_right hs).mpr (hall v hv).1
    have h2 := (div_le_div_iff_of_pos_right hs).mpr (hall v hv).2
    have htop := (abs_le.mp (hfits w hw)).2
    have hlow := hfits u hu
    rw [hmax] at htop
    rw [hmin, ← abs_neg, ← hneg] at hlow
    refine level_near hM hM' (hrounded _ (hfits v hv)) ?_
      (b := -(bounds group).1 / scaleOf bits group)
      ?_ ?_ ?_
    · rw [hzero]
      exact hrounded _ hlow
    · rw [hneg]
      linarith
    · rw [hneg]
      linarith
    · rw [hneg]
      linarith

theorem levelOf_bounds (bits : QuantBits) (group : List F32) (v : F32) :
    0 ≤ (levelOf bits group v).toInt ∧ (levelOf bits group v).toInt ≤ bits.maxValue.toInt := by
  have hM := bits.maxValue_bounds.1
  unfold levelOf
  split
  · rw [toInt_clamp _ hM.le]
    omega
  · rw [Int32.toInt_zero]
    omega

/-- Finite values are quantized. -/
theorem quantize_of_singles {values : List F32} (h : Singles values) (bits : QuantBits) :
    quantize values bits = .ok
      ⟨pack ((values.chunks groupSize).flatMap (fun g => g.map (levelOf bits g))) bits,
        (values.chunks groupSize).map (storedScale bits),
        (values.chunks groupSize).map (storedZeroPoint bits), values.length, bits⟩ := by
  have hgroup : ∀ g ∈ values.chunks groupSize, quantizeGroup bits g
      = .ok (g.map (levelOf bits g), storedScale bits g, storedZeroPoint bits g) := by
    intro g hg
    have hfind : g.find? (fun v => !v.isFinite) = none := by
      rw [List.find?_eq_none]
      intro v hv
      have hmem : v ∈ values := by
        rw [← List.flatten_chunks (w := groupSize) (by decide) values]
        exact List.mem_flatten.mpr ⟨g, hg, hv⟩
      simp [(h v hmem).1]
    rw [quantizeGroup, hfind]
    rfl
  have hall : (values.chunks groupSize).mapM (quantizeGroup bits)
      = .ok ((values.chunks groupSize).map
        (fun g => (g.map (levelOf bits g), storedScale bits g, storedZeroPoint bits g))) := by
    rw [List.mapM_eq_ok_iff, List.forall₂_map_right_iff, List.forall₂_same]
    exact hgroup
  rcases eq_or_ne values [] with rfl | hne
  · cases bits <;> rfl
  · rw [quantize, if_neg (by simpa using hne), hall]
    show Except.ok _ = _
    rw [List.flatMap_map, List.map_map, List.map_map]
    rfl

theorem scales_of_singles {values : List F32} {t : QuantizedTensor} (h : Singles values)
    (ht : quantize values bits = .ok t) :
    t.scales = (values.chunks groupSize).map (storedScale bits) := by
  rw [quantize_of_singles h, Except.ok.injEq] at ht
  rw [← ht]

/-- **What is quantized is restored group by group.** -/
theorem dequantize_of_singles {values : List F32} {t : QuantizedTensor} (h : Singles values)
    (ht : quantize values bits = .ok t) :
    dequantize t = (values.chunks groupSize).flatMap (restored bits) := by
  rw [quantize_of_singles h, Except.ok.injEq] at ht
  subst ht
  have hsize : 0 < groupSize := by decide
  have hlevels : ∀ g : List F32, (g.map (levelOf bits g)).length = g.length :=
    fun g => List.length_map _
  have hcount : ((values.chunks groupSize).flatMap (fun g => g.map (levelOf bits g))).length
      = values.length := by
    rw [List.length_flatMap]
    simp only [hlevels]
    rw [← List.length_flatten, List.flatten_chunks hsize]
  have hbounds : ∀ v ∈ (values.chunks groupSize).flatMap (fun g => g.map (levelOf bits g)),
      0 ≤ v.toInt ∧ v.toInt ≤ bits.maxValue.toInt := by
    intro v hv
    obtain ⟨g, -, hv⟩ := List.mem_flatMap.mp hv
    obtain ⟨u, -, rfl⟩ := List.mem_map.mp hv
    exact levelOf_bounds bits g u
  have hunpack := unpack_pack hbounds
  rw [hcount] at hunpack
  rw [dequantize, hunpack, List.chunks_flatMap hsize hlevels, List.flatMap_def]
  refine congrArg List.flatten (List.ext_getElem? (fun i => ?_))
  simp only [List.getElem?_map, List.getElem?_zipIdx, List.getD_eq_getElem?_getD, Nat.zero_add]
  rcases hg : (values.chunks groupSize)[i]? with - | g
  · rfl
  · simp only [Option.map_some, hg, Option.getD_some, restored]

/-- **The round trip is within half a step.** The values are accepted, as many
come back, each is within half the scale of its group, and those of a constant
group are what they were. -/
def RoundTrips (values : List F32) (bits : QuantBits) : Prop :=
  ∃ t, quantize values bits = .ok t ∧ (dequantize t).length = values.length
    ∧ ∀ (i : ℕ) (v : F32) (group : List F32), values[i]? = some v →
      (values.chunks groupSize)[i / groupSize]? = some group →
      ∃ d s, (dequantize t)[i]? = some d ∧ d.isFinite = true
        ∧ t.scales[i / groupSize]? = some s ∧ |v.value - d.value| ≤ s / 2
        ∧ ((∀ u ∈ group, u = v) → d = v)

/-- The values of a group fit: they are equal, or none of them is more than
`2 ^ 31 - 1 / 2` steps from zero, a step being the largest difference between
two of them over the highest level. -/
def Fits (bits : QuantBits) (group : List F32) : Prop :=
  (∀ u ∈ group, ∀ v ∈ group, u = v) ∨ ∃ u ∈ group, ∃ w ∈ group, u.value < w.value
    ∧ ∀ v ∈ group, |v.value| ≤ (2 ^ 31 - 1 / 2) * ((w.value - u.value) / bits.maxValue.toInt)

theorem fits_iff (h : Singles group) (hne : group ≠ []) : Fits bits group
    ↔ (0 < range group → ∀ v ∈ group, |v.value / scaleOf bits group| ≤ 2 ^ 31 - 1 / 2) := by
  obtain ⟨⟨a, ha, hmin⟩, ⟨b, hb, hmax⟩, hall⟩ := bounds_spec h hne
  have hs := scaleOf_pos bits group
  have hdiv : ∀ v : F32, |v.value / scaleOf bits group| ≤ 2 ^ 31 - 1 / 2
      ↔ |v.value| ≤ (2 ^ 31 - 1 / 2) * scaleOf bits group := fun v => by
    rw [abs_div, abs_of_pos hs, div_le_iff₀ hs]
  have hscale : 0 < range group →
      scaleOf bits group = (b.value - a.value) / bits.maxValue.toInt := fun hrange => by
    rw [scaleOf, if_pos hrange, hmin, hmax]
    rfl
  simp only [hdiv]
  constructor
  · rintro (hconst | ⟨u, hu, w, hw, -, hfits⟩) hrange v hv
    · exact absurd hconst ((range_pos_iff h hne).mp hrange)
    · refine (hfits v hv).trans (mul_le_mul_of_nonneg_left ?_ (by norm_num))
      rw [hscale hrange]
      refine (div_le_div_iff_of_pos_right (maxValue_pos bits)).mpr (sub_le_sub ?_ ?_)
      · exact hmax.symm ▸ (hall w hw).2
      · exact hmin.symm ▸ (hall u hu).1
  · intro hfits
    by_cases hrange : 0 < range group
    · refine Or.inr ⟨a, ha, b, hb, ?_, fun v hv => hscale hrange ▸ hfits hrange v hv⟩
      rw [hmin, hmax]
      exact sub_pos.mp hrange
    · exact Or.inl (not_not.mp ((range_pos_iff h hne).not.mp hrange))

/-- **When quantization loses at most half a step**: exactly when every group
fits. The number of steps that a value is from zero is cast to an `i32`, and so
is the zero point; in a group that lies far from zero, with steps that are small,
both stop at the end of its range. -/
theorem quantize_within_half_step_iff (values : List F32) (bits : QuantBits)
    (h : Singles values) :
    RoundTrips values bits ↔ ∀ group ∈ values.chunks groupSize, Fits bits group := by
  have hsize : 0 < groupSize := by decide
  have hgroup : ∀ g ∈ values.chunks groupSize, Singles g ∧ g ≠ [] := by
    intro g hg
    obtain ⟨i, hi, rfl⟩ := List.getElem_of_mem hg
    refine ⟨fun v hv => h v ?_, ?_⟩
    · rw [← List.flatten_chunks hsize values]
      exact List.mem_flatten.mpr ⟨_, hg, hv⟩
    · rw [List.length_chunks, Nat.lt_ceilDiv_iff_mul_lt hsize] at hi
      rw [List.getElem_chunks, ← List.length_pos_iff, List.length_take, List.length_drop]
      omega
  have hback : ∀ i, ((values.chunks groupSize).flatMap (restored bits))[i]?
      = ((values.chunks groupSize)[i / groupSize]?).bind
          (fun g => (restored bits g)[i % groupSize]?) :=
    List.getElem?_flatMap_chunks hsize (length_restored bits) values
  constructor
  · rintro ⟨t, ht, -, hnear⟩ g hg
    obtain ⟨hsingles, hne⟩ := hgroup g hg
    rw [fits_iff hsingles hne]
    intro hrange
    refine (levels_near_iff hsingles hrange).mp (fun v hv => ?_)
    obtain ⟨j, hj, rfl⟩ := List.getElem_of_mem hg
    obtain ⟨r, hr, rfl⟩ := List.getElem_of_mem hv
    -- the value's place in the whole list
    have hlt : r < groupSize := by
      rw [List.getElem_chunks, List.length_take] at hr
      omega
    have hdiv : (j * groupSize + r) / groupSize = j := by
      rw [Nat.add_comm, Nat.add_mul_div_right _ _ hsize, Nat.div_eq_of_lt hlt, Nat.zero_add]
    have hmod : (j * groupSize + r) % groupSize = r := by
      rw [Nat.add_comm, Nat.add_mul_mod_self_right, Nat.mod_eq_of_lt hlt]
    have hchunk : (values.chunks groupSize)[(j * groupSize + r) / groupSize]?
        = some (values.chunks groupSize)[j] := by rw [hdiv, List.getElem?_eq_getElem hj]
    have hvalue := List.getElem?_eq_chunk hsize values (j * groupSize + r)
    rw [hchunk, Option.bind_some, hmod, List.getElem?_eq_getElem hr] at hvalue
    obtain ⟨d, s, hd, -, hs, hle, -⟩ := hnear _ _ _ hvalue hchunk
    rw [dequantize_of_singles h ht, hback, hchunk, Option.bind_some, hmod,
      restored_of_range_pos hrange, List.getElem?_map, List.getElem?_eq_getElem hr] at hd
    rw [scales_of_singles h ht, List.getElem?_map, hchunk] at hs
    obtain rfl := Option.some.inj hd
    obtain rfl := Option.some.inj hs
    rw [storedScale, if_pos hrange] at hle
    exact hle
  · intro hfits
    obtain ⟨t, ht⟩ : ∃ t, quantize values bits = .ok t := ⟨_, quantize_of_singles h bits⟩
    refine ⟨t, ht, ?_, ?_⟩
    · rw [dequantize_of_singles h ht, List.length_flatMap]
      simp only [length_restored]
      rw [← List.length_flatten, List.flatten_chunks hsize]
    · intro i v g hv hg
      have hmem := List.mem_of_getElem? hg
      obtain ⟨hsingles, hne⟩ := hgroup g hmem
      rw [List.getElem?_eq_chunk hsize, hg, Option.bind_some] at hv
      have hvg := List.mem_of_getElem? hv
      have hd : (dequantize t)[i]? = (restored bits g)[i % groupSize]? := by
        rw [dequantize_of_singles h ht, hback, hg, Option.bind_some]
      have hs : t.scales[i / groupSize]? = some (storedScale bits g) := by
        rw [scales_of_singles h ht, List.getElem?_map, hg]
        rfl
      by_cases hrange : 0 < range g
      · rw [restored_of_range_pos hrange, List.getElem?_map, hv] at hd
        rw [storedScale, if_pos hrange] at hs
        refine ⟨_, _, hd, rfl, hs, ?_, fun hconst => ?_⟩
        · exact (levels_near_iff hsingles hrange).mpr
            ((fits_iff hsingles hne).mp (hfits g hmem) hrange) v hvg
        · exact absurd (fun u hu w hw => (hconst u hu).trans (hconst w hw).symm)
            ((range_pos_iff hsingles hne).mp hrange)
      · have hconst := not_not.mp ((range_pos_iff hsingles hne).not.mp hrange)
        rw [restored_of_constant hsingles hconst, hv] at hd
        rw [storedScale, if_neg hrange] at hs
        refine ⟨v, 0, hd, (hsingles v hvg).1, hs, ?_, fun _ => rfl⟩
        rw [sub_self, abs_zero, zero_div]

/-- Two neighbours among the integers of single precision: the zero point of
`INT8` is cut off, and the first comes back as `-2 ^ 31 / 255`. -/
theorem quantize_large_offset :
    let values : List F32 := [.finite 16777215, .finite 16777216]
    Singles values ∧ ¬ RoundTrips values .int8 := by
  intro values
  have hsingles : Singles values := by
    intro v hv
    simp only [values, List.mem_cons, List.not_mem_nil, or_false] at hv
    rcases hv with rfl | rfl
    · exact ⟨rfl, 0x4B7FFFFF, by decide +kernel⟩
    · exact ⟨rfl, 0x4B800000, by decide +kernel⟩
  refine ⟨hsingles, ?_⟩
  rintro ⟨t, ht, -, hnear⟩
  have hd : dequantize t = [.finite (-2 ^ 31 / 255), .finite (-2 ^ 31 / 255)] := by
    rw [dequantize_of_singles hsingles ht]
    decide +kernel
  have hs : t.scales = [1 / 255] := by
    rw [scales_of_singles hsingles ht]
    decide +kernel
  obtain ⟨d, s, hget, -, hscale, hle, -⟩ := hnear 0 (.finite 16777215) values rfl
    (by decide +kernel)
  rw [hd] at hget
  rw [hs] at hscale
  obtain rfl := Option.some.inj hget
  obtain rfl := Option.some.inj hscale
  norm_num [F32.value, abs_le] at hle

/-- The integers zero to three, in nibbles. -/
theorem quantize_within_half_step_iff_four :
    RoundTrips [.finite 0, .finite 1, .finite 2] .int4 := by
  refine (quantize_within_half_step_iff [.finite 0, .finite 1, .finite 2] .int4 ?_).mpr ?_
  · intro v hv
    simp only [List.mem_cons, List.not_mem_nil, or_false] at hv
    rcases hv with rfl | rfl | rfl
    · exact ⟨rfl, 0, by decide +kernel⟩
    · exact ⟨rfl, 0x3F800000, by decide +kernel⟩
    · exact ⟨rfl, 0x40000000, by decide +kernel⟩
  · intro g hg
    have hchunks : List.chunks groupSize [F32.finite 0, .finite 1, .finite 2]
        = [[.finite 0, .finite 1, .finite 2]] := by decide +kernel
    rw [hchunks, List.mem_singleton] at hg
    subst hg
    have hM : QuantBits.int4.maxValue.toInt = 15 := by decide
    refine Or.inr ⟨.finite 0, by simp, .finite 2, by simp, by norm_num [F32.value],
      fun v hv => ?_⟩
    rw [hM]
    simp only [List.mem_cons, List.not_mem_nil, or_false] at hv
    rcases hv with rfl | rfl | rfl <;> norm_num [F32.value]

end Quantization

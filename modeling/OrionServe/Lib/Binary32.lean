import Mathlib.Tactic

/-!
# Single-precision numbers as rationals

The bit pattern of a single-precision number gives its magnitude in units of
`2 ^ -149`, and is determined by it (`pattern_units`). Below it, rounding to
the nearest integer with half-way cases away from zero, and the cast to a
32-bit integer that stops at the ends of its range.
-/

namespace Binary32

/-- The magnitude that a pattern without its sign bit encodes, in units of
`2 ^ -149`. -/
def units (m : ℕ) : ℕ :=
  if m / 2 ^ 23 = 0 then m else (2 ^ 23 + m % 2 ^ 23) * 2 ^ (m / 2 ^ 23 - 1)

/-- The pattern of a magnitude, without the sign bit. -/
def pattern (n : ℕ) : ℕ :=
  if n < 2 ^ 23 then n else (n.log2 - 22) * 2 ^ 23 + (n / 2 ^ (n.log2 - 23) - 2 ^ 23)

/-- A significand with its leading bit, shifted. -/
theorem log2_mul_two_pow {a e : ℕ} (hlow : 2 ^ 23 ≤ a) (hhigh : a < 2 ^ 24) :
    (a * 2 ^ e).log2 = 23 + e := by
  have hpos : 0 < 2 ^ e := Nat.two_pow_pos e
  have hne : a * 2 ^ e ≠ 0 := Nat.mul_ne_zero (by omega) hpos.ne'
  rw [Nat.log2_eq_iff hne, Nat.pow_add, show 23 + e + 1 = 24 + e by omega, Nat.pow_add]
  exact ⟨Nat.mul_le_mul_right _ hlow, Nat.mul_lt_mul_of_pos_right hhigh hpos⟩

/-- **A pattern is that of its magnitude.** -/
theorem pattern_units (m : ℕ) : pattern (units m) = m := by
  have hmod := Nat.mod_lt m (Nat.two_pow_pos 23)
  have hdiv := Nat.div_add_mod m (2 ^ 23)
  by_cases hexp : m / 2 ^ 23 = 0
  · have hm : m < 2 ^ 23 := by omega
    rw [units, if_pos hexp, pattern, if_pos hm]
  · have hpos : 0 < 2 ^ (m / 2 ^ 23 - 1) := Nat.two_pow_pos _
    have hlog : ((2 ^ 23 + m % 2 ^ 23) * 2 ^ (m / 2 ^ 23 - 1)).log2 = 23 + (m / 2 ^ 23 - 1) :=
      log2_mul_two_pow (by omega) (by omega)
    have hlarge : ¬ (2 ^ 23 + m % 2 ^ 23) * 2 ^ (m / 2 ^ 23 - 1) < 2 ^ 23 := by
      have := Nat.le_mul_of_pos_right (2 ^ 23 + m % 2 ^ 23) hpos
      omega
    rw [units, if_neg hexp, pattern, if_neg hlarge, hlog, Nat.add_sub_cancel_left,
      Nat.mul_div_cancel _ hpos, Nat.add_sub_cancel_left]
    have : 23 + (m / 2 ^ 23 - 1) - 22 = m / 2 ^ 23 := by omega
    rw [this]
    omega

/-- The nearest integer, half-way cases away from zero. -/
def roundAway (q : ℚ) : ℤ := if 0 ≤ q then ⌊q + 1 / 2⌋ else ⌈q - 1 / 2⌉

theorem abs_sub_roundAway_le (q : ℚ) : |q - roundAway q| ≤ 1 / 2 := by
  unfold roundAway
  split
  · have hle := Int.floor_le (q + 1 / 2)
    have hlt := Int.lt_floor_add_one (q + 1 / 2)
    rw [abs_le]
    constructor <;> linarith
  · have hle := Int.le_ceil (q - 1 / 2)
    have hlt := Int.ceil_lt_add_one (q - 1 / 2)
    rw [abs_le]
    constructor <;> linarith

end Binary32

namespace Int32

/-- A cast that stops at the ends of the range. -/
theorem toInt_ofIntClamp_eq (n : ℤ) :
    (Int32.ofIntClamp n).toInt = max (-2 ^ 31) (min n (2 ^ 31 - 1)) := by
  rcases lt_or_ge n Int32.minValue.toInt with hlow | hlow
  · rw [Int32.ofIntClamp, dif_neg (not_le.mpr hlow)]
    rw [Int32.toInt_minValue] at hlow ⊢
    omega
  · rcases le_or_gt n Int32.maxValue.toInt with hhigh | hhigh
    · rw [Int32.toInt_ofIntClamp hlow hhigh]
      rw [Int32.toInt_minValue] at hlow
      rw [Int32.toInt_maxValue] at hhigh
      omega
    · rw [Int32.ofIntClamp, dif_pos hlow, dif_neg (not_le.mpr hhigh)]
      rw [Int32.toInt_maxValue] at hhigh ⊢
      omega

/-- **The cast of a rounded number is as near as the rounding**, as long as
the number is not more than half a unit beyond the largest integer. -/
theorem abs_sub_ofIntClamp_le {x : ℚ} {n : ℤ} (hn : |x - n| ≤ 1 / 2)
    (hx : |x| ≤ 2 ^ 31 - 1 / 2) : |x - (Int32.ofIntClamp n).toInt| ≤ 1 / 2 := by
  rw [abs_le] at hn hx ⊢
  rw [toInt_ofIntClamp_eq]
  have hlow : -2 ^ 31 ≤ n := by
    have : ((-2 ^ 31 : ℤ) : ℚ) - 1 < n := by
      push_cast
      linarith
    exact_mod_cast Int.le_of_sub_one_lt (by exact_mod_cast this)
  rcases le_or_gt n (2 ^ 31 - 1) with h | h
  · rw [min_eq_left h, max_eq_right hlow]
    exact hn
  · have hge : ((2 ^ 31 : ℤ) : ℚ) ≤ n := by exact_mod_cast (by omega : (2 ^ 31 : ℤ) ≤ n)
    rw [min_eq_right h.le, max_eq_right (by norm_num)]
    push_cast at hge ⊢
    constructor <;> linarith

end Int32

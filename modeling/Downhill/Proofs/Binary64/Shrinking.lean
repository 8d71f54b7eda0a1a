import Downhill.Proofs.Binary64.Precision
import Downhill.Proofs.Binary64.Signs

/-! # Numbers made smaller

What a product with a factor below one is, when the factor was found by dividing a positive number
by a larger one.

* `isFraction_div`: such a quotient has no sign bit and is at most `1 - 2 ^ -53`.  It never rounds
  to one, because machine numbers with 53 bits cannot lie closer together than that
  (`OnGrid.le_of_lt`).  It may be a zero: the divisor may be infinite or the quotient too small.
* `IsFraction.shrinks`: a finite number times such a factor is finite, has the sign of that number,
  and is not larger in magnitude.  If the number is larger than the least normal one, the product
  is smaller.  At the least normal number itself, whose last place is the unit of all smaller
  numbers, the product may be half a unit below and is then rounded up to where it came from.
-/

namespace Downhill.Binary64

open Float.Model (Format UnpackedFloat)
open Float.Model.UnpackedFloat

/-! ## 1. Room between numbers -/

theorem zero_le_one_sub : (0 : ℚ) ≤ 1 - 2 ^ (-53 : ℤ) := by norm_num

/-- An integer of 53 bits keeps its distance from a larger one. -/
theorem intCast_le_of_lt {a b : ℤ} (h : a < b) (ha : a < 2 ^ 53) :
    (a : ℚ) ≤ (1 - 2 ^ (-53 : ℤ)) * b := by
  have hunit : (2 : ℚ) ^ (-53 : ℤ) * 2 ^ 53 = 1 := by norm_num
  have hb : (a : ℚ) + 1 ≤ b := by exact_mod_cast h
  have ha : (a : ℚ) + 1 ≤ 2 ^ 53 := by exact_mod_cast ha
  calc (a : ℚ) = a + 1 - 2 ^ (-53 : ℤ) * 2 ^ 53 := by rw [hunit]; ring
    _ ≤ a + 1 - 2 ^ (-53 : ℤ) * (a + 1) :=
        sub_le_sub_left (mul_le_mul_of_nonneg_left ha (by positivity)) _
    _ = (1 - 2 ^ (-53 : ℤ)) * (a + 1) := by ring
    _ ≤ (1 - 2 ^ (-53 : ℤ)) * b := mul_le_mul_of_nonneg_left hb zero_le_one_sub

/-- In no units the two come any closer. -/
theorem mul_two_pow_le_of_lt {a b i : ℤ} (h : (a : ℚ) * 2 ^ i < b * 2 ^ i) (ha : a < 2 ^ 53) :
    (a : ℚ) * 2 ^ i ≤ (1 - 2 ^ (-53 : ℤ)) * (b * 2 ^ i) := by
  have hab : a < b := by exact_mod_cast (mul_lt_mul_iff_left₀ (by positivity)).mp h
  rw [← mul_assoc]
  exact mul_le_mul_of_nonneg_right (intCast_le_of_lt hab ha) (by positivity)

/-- **Different numbers on the grid are not close to each other**: the smaller one is at most
`1 - 2 ^ -53` of the larger one. -/
theorem OnGrid.le_of_lt {v w : ℚ} (hv : OnGrid v) (hw : OnGrid w) (h : v < w) :
    v ≤ (1 - 2 ^ (-53 : ℤ)) * w := by
  obtain ⟨m, e, hm, -, rfl⟩ := hv
  obtain ⟨n, k, hn, -, rfl⟩ := hw
  -- both are integers in units of the smaller exponent; the lesser one has 53 bits, either by
  -- itself or because the greater one has
  rcases le_total e k with hle | hle
  · rw [← intCast_mul_two_pow n hle] at h ⊢
    exact mul_two_pow_le_of_lt h (lt_of_abs_lt hm)
  · rw [← intCast_mul_two_pow m hle] at h ⊢
    have hlt : m * 2 ^ (e - k).toNat < n := by
      exact_mod_cast (mul_lt_mul_iff_left₀ (by positivity)).mp h
    exact mul_two_pow_le_of_lt h (hlt.trans (lt_of_abs_lt hn))

/-! ## 2. Rounding a part of a number -/

theorem abs_rounded (v : ℚ) : |rounded v| = rounded |v| := by
  rcases le_total 0 v with hv | hv
  · rw [abs_of_nonneg hv, abs_of_nonneg (rounded_nonneg hv)]
  · rw [abs_of_nonpos hv, rounded_neg, abs_of_nonpos]
    rw [← neg_nonneg, ← rounded_neg]
    exact rounded_nonneg (neg_nonneg.mpr hv)

/-- **Above the least normal number a part of a number is rounded to less than the number.** -/
theorem rounded_lt_of_le {v w : ℚ} (hw : 2 ^ (-1022 : ℤ) < w) (h0 : 0 ≤ v)
    (h : v ≤ (1 - 2 ^ (-53 : ℤ)) * w) : rounded v < w := by
  have hunit : (0 : ℚ) < 2 ^ (-53 : ℤ) := by positivity
  rw [rounded_of_nonneg h0]
  by_cases hlast : lastPlace v = -1074
  · -- rounding adds half of the least positive number, and the part has lost more than that
    have herror := (abs_le.mp (abs_roundedMagnitude_sub_le v)).2
    rw [hlast, two_pow_neg_1074_div_two, two_pow_neg_1075] at herror
    have hlost : (2 : ℚ) ^ (-53 : ℤ) * 2 ^ (-1022 : ℤ) < 2 ^ (-53 : ℤ) * w :=
      mul_lt_mul_of_pos_left hw hunit
    linarith
  · -- rounding adds at most as large a part of `v` as `v` has lost of `w`
    have herror := (abs_le.mp (abs_roundedMagnitude_sub_le_mul h0 hlast)).2
    have hwpos : 0 < w := lt_trans (by positivity) hw
    have hless : v < w := h.trans_lt (mul_lt_of_lt_one_left hwpos (sub_lt_self 1 hunit))
    have hlost : (2 : ℚ) ^ (-53 : ℤ) * v < 2 ^ (-53 : ℤ) * w := mul_lt_mul_of_pos_left hless hunit
    linarith

/-! ## 3. Factors below one -/

variable {r s x y : Float}

/-- The number has no sign bit, not even as a zero, and is at most the number next to one. -/
structure IsFraction (s : Float) : Prop where
  isFinite : s.isFinite = true
  signBit : signBit s = false
  le : toRat s ≤ 1 - 2 ^ (-53 : ℤ)

theorem IsFraction.nonneg (hs : IsFraction s) : 0 ≤ toRat s :=
  toRat_nonneg_of_signBit hs.isFinite hs.signBit

theorem onGrid_one_sub : OnGrid (1 - 2 ^ (-53 : ℤ)) :=
  ⟨2 ^ 53 - 1, -53, by norm_num, by norm_num, by norm_num⟩

/-- A finite number divided by an infinite one is a zero. -/
theorem isZero_div_infinity (hx : x.isFinite = true) {t : Sign} (hy : unpacked y = .infinity t) :
    IsZero (x / y) := by
  rw [IsZero, unpacked_div, hy]
  obtain ⟨s, hs⟩ | ⟨s, m, e, hm, hs⟩ := unpacked_cases hx <;> rw [hs] <;> exact ⟨_, rfl⟩

/-- **A positive number divided by a greater one is a fraction**, even if that one is infinite. -/
theorem isFraction_div (hr : r.isFinite = true) (hpos : 0.0 < r) (h : r < y) :
    IsFraction (r / y) := by
  have hy : 0.0 < y := lt_le_trans hpos (le_of_lt h)
  have hsign (hdefined : (r / y).isNaN = false) : signBit (r / y) = false := by
    rw [signBit_div hdefined, signBit_of_pos hpos, signBit_of_pos hy]
    rfl
  by_cases hfinite : y.isFinite = true
  · rw [lt_iff_toRat rfl hr, toRat_zero] at hpos
    rw [lt_iff_toRat hr hfinite] at h
    have hypos : 0 < toRat y := hpos.trans h
    have hround := roundsTo_div hr hfinite hypos.ne'
    have hle : toRat r / toRat y ≤ 1 - 2 ^ (-53 : ℤ) := by
      rw [div_le_iff₀ hypos]
      exact (onGrid_exactValue (canonical_unpacked r)).le_of_lt
        (onGrid_exactValue (canonical_unpacked y)) h
    have h0 : 0 ≤ toRat r / toRat y := div_nonneg hpos.le hypos.le
    have hquotient : (r / y).isFinite = true := by
      refine (hround.bounded_two_pow (k := 0) (by norm_num) (by norm_num) ?_).1
      rw [abs_of_nonneg h0, zpow_zero]
      exact hle.trans (sub_le_self 1 (by positivity))
    exact ⟨hquotient, hsign hround.isNaN, hround.le_grid hquotient onGrid_one_sub hle⟩
  · obtain ⟨t, ht⟩ := infinite_of_not_finite hfinite (defined_of_le (le_of_lt h)).2
    have hzero := isZero_div_infinity hr ht
    refine ⟨hzero.isFinite, hsign (defined_of_finite hzero.isFinite), ?_⟩
    rw [hzero.toRat_eq]
    exact zero_le_one_sub

/-! ## 4. Products with them -/

/-- The least number with a full mantissa. -/
def leastNormal : Float := .ofBits 0x0010000000000000

theorem toRat_leastNormal : toRat leastNormal = 2 ^ (-1022 : ℤ) := by
  have h : toRat leastNormal = (2 ^ 52 : Nat) * 2 ^ (-1074 : ℤ) := rfl
  rw [h, two_pow_mul]
  rfl

/-- The number `y` is `x` moved towards zero without leaving its side of zero: it is finite, has the
same sign, even where it is a zero, and no larger magnitude, which is smaller unless that of `x` was
at most the least normal number. -/
structure ShrinksTo (x y : Float) : Prop where
  isFinite : y.isFinite = true
  signBit : signBit y = signBit x
  abs_le : y.abs ≤ x.abs
  abs_lt : leastNormal < x.abs → y.abs < x.abs

/-- **A finite number times a fraction shrinks.** -/
theorem IsFraction.shrinks (hs : IsFraction s) (hx : x.isFinite = true) :
    ShrinksTo x (x * s) := by
  have hone : toRat s ≤ 1 := hs.le.trans (sub_le_self 1 (by positivity))
  have hfinite := isFinite_mul_of_le_one hx hs.isFinite hs.nonneg hone
  have hvalue : |toRat (x * s)| = rounded (|toRat x| * toRat s) := by
    rw [(roundsTo_mul hx hs.isFinite).toRat_eq hfinite, abs_rounded, abs_mul,
      abs_of_nonneg hs.nonneg]
  refine ⟨hfinite, ?_, ?_, fun hlarge => ?_⟩
  · rw [signBit_mul (defined_of_finite hfinite), hs.signBit, Bool.xor_false]
  · rw [le_iff_toRat (isFinite_abs hfinite) (isFinite_abs hx), toRat_abs, hvalue, ← toRat_abs x]
    calc rounded (toRat x.abs * toRat s) ≤ rounded (toRat x.abs) :=
          rounded_mono (mul_le_of_le_one_right (toRat_abs x ▸ abs_nonneg _) hone)
      _ = toRat x.abs := rounded_of_onGrid (onGrid_exactValue (canonical_unpacked x.abs))
  · rw [lt_iff_toRat (by decide +kernel) (isFinite_abs hx), toRat_leastNormal, toRat_abs] at hlarge
    rw [lt_iff_toRat (isFinite_abs hfinite) (isFinite_abs hx), toRat_abs, toRat_abs, hvalue]
    refine rounded_lt_of_le hlarge (mul_nonneg (abs_nonneg _) hs.nonneg) ?_
    rw [mul_comm]
    exact mul_le_mul_of_nonneg_right hs.le (abs_nonneg _)

end Downhill.Binary64

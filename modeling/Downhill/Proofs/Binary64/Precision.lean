import Downhill.Proofs.Binary64.Limits

/-! # How far rounding goes

Rounding to the nearest moves a number by at most half a unit of its last place.

* `abs_rounded_sub_le`: that is at most the part `2 ^ -53` of the number, plus half of the least
  positive number.
* `abs_rounded_sub_le_of_multiple`: for a multiple of the least positive number it is at most that
  part, however small the number.  Sums and differences of machine numbers are such multiples.
* `RoundsTo.bounded`: a number that needs no rounding and bounds an exact result bounds the rounded
  one.
* `toRat_two_mul`, `abs_toRat_half_mul_sub_le`: doubling is exact unless it leads out of range, and
  halving loses at most half of the least positive number.
-/

namespace Downhill.Binary64

open Float.Model (Format UnpackedFloat)
open Float.Model.UnpackedFloat

/-! ## 1. Half a unit of the last place -/

theorem abs_nearestEven_sub_le (x : ℚ) : |(nearestEven x : ℚ) - x| ≤ 1 / 2 := by
  have hx := Int.floor_add_fract x
  have hlo := Int.fract_nonneg x
  have hhi := Int.fract_lt_one x
  rcases lt_trichotomy (Int.fract x) (1 / 2) with h | h | h
  · rw [nearestEven_of_lt h, abs_le]
    constructor <;> linarith
  · rw [nearestEven_of_eq h, abs_le]
    have hparity : (0 : ℚ) ≤ (⌊x⌋ % 2 : ℤ) ∧ ((⌊x⌋ % 2 : ℤ) : ℚ) ≤ 1 := by
      constructor
      · exact_mod_cast Int.emod_nonneg _ two_ne_zero
      · exact_mod_cast Int.lt_add_one_iff.mp (Int.emod_lt_of_pos ⌊x⌋ two_pos)
    push_cast
    constructor <;> linarith [hparity.1, hparity.2]
  · rw [nearestEven_of_gt h, abs_le]
    push_cast
    constructor <;> linarith

theorem abs_roundedMagnitude_sub_le (v : ℚ) :
    |roundedMagnitude v - v| ≤ 2 ^ lastPlace v / 2 := by
  have hpos : (0 : ℚ) < 2 ^ lastPlace v := by positivity
  have hscale : roundedMagnitude v - v =
      (nearestEven (v / 2 ^ lastPlace v) - v / 2 ^ lastPlace v) * 2 ^ lastPlace v := by
    rw [roundedMagnitude, sub_mul, div_mul_cancel₀ _ hpos.ne']
  rw [hscale, abs_mul, abs_of_pos hpos]
  calc _ ≤ 1 / 2 * (2 : ℚ) ^ lastPlace v :=
        mul_le_mul_of_nonneg_right (abs_nearestEven_sub_le _) hpos.le
    _ = 2 ^ lastPlace v / 2 := by ring

/-- Half of the least positive number. -/
theorem two_pow_neg_1074_div_two : (2 : ℚ) ^ (-1074 : ℤ) / 2 = 2 ^ (-1075 : ℤ) := by
  rw [show (-1074 : ℤ) = -1075 + 1 by norm_num, zpow_add_one₀ two_ne_zero,
    mul_div_cancel_right₀ _ two_ne_zero]

/-- It is the part `2 ^ -53` of the least number with a full mantissa. -/
theorem two_pow_neg_1075 : (2 : ℚ) ^ (-1075 : ℤ) = 2 ^ (-53 : ℤ) * 2 ^ (-1022 : ℤ) := by
  rw [← zpow_add₀ two_ne_zero]
  rfl

theorem two_pow_neg_53_le : (2 : ℚ) ^ (-53 : ℤ) ≤ 1 / 8 :=
  (zpow_le_zpow_right₀ one_le_two (by norm_num : (-53 : ℤ) ≤ -3)).trans (by norm_num)

/-- Above the least exponent that is at most the part `2 ^ -53` of the number. -/
theorem abs_roundedMagnitude_sub_le_mul {v : ℚ} (hv : 0 ≤ v) (h : lastPlace v ≠ -1074) :
    |roundedMagnitude v - v| ≤ 2 ^ (-53 : ℤ) * v := by
  rcases hv.eq_or_lt with rfl | hpos
  · rw [roundedMagnitude_zero, sub_zero, abs_zero, mul_zero]
  calc |roundedMagnitude v - v| ≤ 2 ^ lastPlace v / 2 := abs_roundedMagnitude_sub_le v
    _ = 2 ^ (-53 : ℤ) * (2 ^ 52 * 2 ^ lastPlace v) := by
        rw [← mul_assoc, mul_comm _ ((2 : ℚ) ^ lastPlace v), div_eq_mul_inv]
        norm_num
    _ ≤ 2 ^ (-53 : ℤ) * v :=
        mul_le_mul_of_nonneg_left (two_pow_lastPlace_le hpos h) (by positivity)

/-- Beside the least exponent a multiple of the least positive number is not moved. -/
theorem roundedMagnitude_of_multiple {v : ℚ} (hlast : lastPlace v = -1074)
    (h : ∃ n : ℤ, v = n * 2 ^ (-1074 : ℤ)) : roundedMagnitude v = v := by
  obtain ⟨n, hn⟩ := h
  have hint : v / 2 ^ lastPlace v = n := by
    rw [hlast, hn, mul_div_cancel_right₀ _ (by positivity)]
  rw [roundedMagnitude, hint, nearestEven_intCast, ← hint, div_mul_cancel₀ _ (by positivity)]

/-- The error of a number is that of its magnitude. -/
theorem abs_rounded_sub_eq (v : ℚ) : |rounded v - v| = |roundedMagnitude |v| - (|v|)| := by
  rcases le_or_gt 0 v with hv | hv
  · rw [rounded_of_nonneg hv, abs_of_nonneg hv]
  · have hneg := rounded_neg (-v)
    rw [neg_neg, rounded_of_nonneg (neg_nonneg.mpr hv.le)] at hneg
    rw [hneg, abs_of_neg hv, ← abs_neg]
    ring_nf

/-- Small numbers have the least exponent. -/
theorem lastPlace_of_lt {v : ℚ} (hv : 0 < v) (h : v < 2 ^ (-1021 : ℤ)) : lastPlace v = -1074 := by
  have hlog : Int.log 2 v < -1021 := by
    refine (Int.lt_zpow_iff_log_lt one_lt_two hv).mp ?_
    rwa [Nat.cast_ofNat]
  rw [lastPlace]
  omega

/-- **Rounding moves a number by at most the part `2 ^ -53` of it** and half of the least positive
number. -/
theorem abs_rounded_sub_le (v : ℚ) :
    |rounded v - v| ≤ 2 ^ (-53 : ℤ) * |v| + 2 ^ (-1075 : ℤ) := by
  rw [abs_rounded_sub_eq]
  by_cases hlast : lastPlace |v| = -1074
  · have herror := abs_roundedMagnitude_sub_le |v|
    rw [hlast, two_pow_neg_1074_div_two] at herror
    exact herror.trans (le_add_of_nonneg_left (by positivity))
  · exact (abs_roundedMagnitude_sub_le_mul (abs_nonneg v) hlast).trans
      (le_add_of_nonneg_right (by positivity))

/-- **A multiple of the least positive number is moved by at most the part `2 ^ -53` of it.** -/
theorem abs_rounded_sub_le_of_multiple {v : ℚ} (h : ∃ n : ℤ, v = n * 2 ^ (-1074 : ℤ)) :
    |rounded v - v| ≤ 2 ^ (-53 : ℤ) * |v| := by
  have habs : ∃ n : ℤ, |v| = n * 2 ^ (-1074 : ℤ) := by
    obtain ⟨n, rfl⟩ := h
    refine ⟨|n|, ?_⟩
    rw [abs_mul, Int.cast_abs, abs_of_pos (by positivity : (0 : ℚ) < 2 ^ (-1074 : ℤ))]
  rw [abs_rounded_sub_eq]
  by_cases hlast : lastPlace |v| = -1074
  · rw [roundedMagnitude_of_multiple hlast habs, sub_self, abs_zero]
    positivity
  · exact abs_roundedMagnitude_sub_le_mul (abs_nonneg v) hlast

/-- A small number is moved by at most half of the least positive number. -/
theorem abs_rounded_sub_le_half {v : ℚ} (h : |v| < 2 ^ (-1021 : ℤ)) :
    |rounded v - v| ≤ 2 ^ (-1075 : ℤ) := by
  rcases eq_or_ne v 0 with rfl | hne
  · rw [rounded_zero, sub_zero, abs_zero]
    positivity
  · rw [abs_rounded_sub_eq, ← two_pow_neg_1074_div_two, ← lastPlace_of_lt (abs_pos.mpr hne) h]
    exact abs_roundedMagnitude_sub_le |v|

/-- What is less than half of the least positive number is rounded to zero. -/
theorem rounded_eq_zero {v : ℚ} (hv : 0 ≤ v) (h : v < 2 ^ (-1075 : ℤ)) : rounded v = 0 := by
  rcases hv.eq_or_lt with rfl | hpos
  · exact rounded_zero
  have hlast := lastPlace_of_lt hpos (h.trans (zpow_lt_zpow_right₀ one_lt_two (by norm_num)))
  have hunit : v / 2 ^ lastPlace v < 1 / 2 := by
    rw [hlast, div_lt_iff₀ (by positivity), one_div_mul_eq_div, two_pow_neg_1074_div_two]
    exact h
  have hunit0 : 0 ≤ v / 2 ^ lastPlace v := by positivity
  have hfloor : ⌊v / 2 ^ lastPlace v⌋ = 0 :=
    Int.floor_eq_zero_iff.mpr ⟨hunit0, by linarith⟩
  have hfract : Int.fract (v / 2 ^ lastPlace v) < 1 / 2 := by
    rw [Int.fract, hfloor, Int.cast_zero, sub_zero]
    exact hunit
  rw [rounded_of_nonneg hv, roundedMagnitude, nearestEven_of_lt hfract, hfloor, Int.cast_zero,
    zero_mul]

variable {x y : Float}

/-! ## 2. Bounds of machine numbers -/

/-- A word with an empty mantissa field is a power of two. -/
theorem two_pow_mul (k : Int) : ((2 ^ 52 : Nat) : ℚ) * 2 ^ k = 2 ^ (k + 52) := by
  rw [zpow_add₀ two_ne_zero, mul_comm]
  norm_num

theorem onGrid_two_pow {k : ℤ} (hk : -1074 ≤ k) : OnGrid (2 ^ k) :=
  ⟨1, k, by norm_num, hk, by rw [Int.cast_one, one_mul]⟩

/-- What rounds a number that is at least one on the grid, is. -/
theorem RoundsTo.grid_le {v g : ℚ} (h : RoundsTo x v) (hx : x.isFinite = true) (hg : OnGrid g)
    (hv : g ≤ v) : g ≤ toRat x := by
  rw [h.toRat_eq hx, ← rounded_of_onGrid hg]
  exact rounded_mono hv

/-- What rounds a number that is at most one on the grid, is. -/
theorem RoundsTo.le_grid {v g : ℚ} (h : RoundsTo x v) (hx : x.isFinite = true) (hg : OnGrid g)
    (hv : v ≤ g) : toRat x ≤ g := by
  rw [h.toRat_eq hx, ← rounded_of_onGrid hg]
  exact rounded_mono hv

/-- **Numbers on the grid bound roundings**, and within range they keep them finite. -/
theorem RoundsTo.bounded {v g : ℚ} (h : RoundsTo x v) (hgrid : OnGrid g)
    (hrange : g ≤ 2 ^ (1023 : ℤ)) (hv : |v| ≤ g) : x.isFinite = true ∧ |toRat x| ≤ g := by
  obtain ⟨hneg, hpos⟩ := abs_le.mp hv
  have hmax : toRat (.ofBits 0x7fe0000000000000) = 2 ^ (1023 : ℤ) := two_pow_mul 971
  have hmin : toRat (.ofBits 0xffe0000000000000) = -2 ^ (1023 : ℤ) :=
    congrArg Neg.neg (two_pow_mul 971)
  have hx : x.isFinite = true := by
    refine finite_of_between (a := .ofBits 0xffe0000000000000) (b := .ofBits 0x7fe0000000000000)
      (by decide +kernel) (by decide +kernel) ?_ ?_
    · exact (roundsTo_self (by decide +kernel)).le h (by rw [hmin]; linarith)
    · exact h.le (roundsTo_self (by decide +kernel)) (by rw [hmax]; linarith)
  exact ⟨hx, abs_le.mpr ⟨h.grid_le hx hgrid.neg hneg, h.le_grid hx hgrid hpos⟩⟩

/-- In particular powers of two do. -/
theorem RoundsTo.bounded_two_pow {v : ℚ} (h : RoundsTo x v) {k : ℤ} (hlow : -1074 ≤ k)
    (hhigh : k ≤ 1023) (hv : |v| ≤ 2 ^ k) : x.isFinite = true ∧ |toRat x| ≤ 2 ^ k :=
  h.bounded (onGrid_two_pow hlow) (zpow_le_zpow_right₀ one_le_two hhigh) hv

theorem toRat_neg (x : Float) : toRat (-x) = -toRat x := by
  rw [toRat, unpacked_neg, exactValue_neg, toRat]

theorem isFinite_neg (hx : x.isFinite = true) : (-x).isFinite = true := by
  change (unpacked (-x)).isFinite = true
  rw [unpacked_neg]
  obtain ⟨s, hs⟩ | ⟨s, m, e, hm, hs⟩ := unpacked_cases hx <;> rw [hs] <;> rfl

theorem toRat_abs (x : Float) : toRat x.abs = |toRat x| := by
  rw [toRat, unpacked_abs, exactValue_abs, toRat]

theorem isFinite_abs (hx : x.isFinite = true) : x.abs.isFinite = true := by
  change (unpacked x.abs).isFinite = true
  rw [unpacked_abs]
  obtain ⟨s, hs⟩ | ⟨s, m, e, hm, hs⟩ := unpacked_cases hx <;> rw [hs] <;> rfl

/-- Finite numbers are less than `2 ^ 1024`. -/
theorem abs_toRat_lt (hx : x.isFinite = true) : |toRat x| < 2 ^ (1024 : ℤ) := by
  obtain ⟨s, hs⟩ | ⟨s, m, e, hm, hs⟩ := unpacked_cases hx
  · rw [toRat, hs, exactValue_zero, abs_zero]
    positivity
  · have hcanonical := canonical_unpacked x
    have hsaturated := saturated_unpacked x
    rw [hs] at hcanonical hsaturated
    have he : e ≤ 971 := by
      by_contra hlarge
      rw [saturated, if_neg hlarge] at hsaturated
      cases hsaturated
    have habs : |toRat x| = m * 2 ^ e := by
      have hpos : (0 : ℚ) ≤ m * 2 ^ e := by positivity
      rw [toRat, hs, exactValue]
      cases s
      · exact (abs_neg _).trans (abs_of_nonneg hpos)
      · exact abs_of_nonneg hpos
    calc |toRat x| = m * 2 ^ e := habs
      _ < 2 ^ (53 : ℤ) * 2 ^ e :=
          mul_lt_mul_of_pos_right (by exact_mod_cast hcanonical.1) (by positivity)
      _ = 2 ^ (53 + e) := (zpow_add₀ two_ne_zero _ _).symm
      _ ≤ 2 ^ (1024 : ℤ) := zpow_le_zpow_right₀ one_le_two (by omega)

/-! ## 3. Sums of machine numbers -/

theorem isMultiple_toRat (x : Float) : ∃ n : ℤ, toRat x = n * 2 ^ (-1074 : ℤ) :=
  (onGrid_exactValue (canonical_unpacked x)).isMultiple

/-- A sum is off by at most the part `2 ^ -53` of it, also where it is very small. -/
theorem abs_toRat_add_sub_le (hxy : (x + y).isFinite = true) :
    |toRat (x + y) - (toRat x + toRat y)| ≤ 2 ^ (-53 : ℤ) * |toRat x + toRat y| := by
  obtain ⟨hx, hy⟩ := finite_of_add hxy
  rw [(roundsTo_add hx hy).toRat_eq hxy]
  obtain ⟨m, hm⟩ := isMultiple_toRat x
  obtain ⟨n, hn⟩ := isMultiple_toRat y
  exact abs_rounded_sub_le_of_multiple ⟨m + n, by rw [hm, hn, Int.cast_add, add_mul]⟩

/-- So is a difference. -/
theorem abs_toRat_sub_sub_le (hxy : (x - y).isFinite = true) :
    |toRat (x - y) - (toRat x - toRat y)| ≤ 2 ^ (-53 : ℤ) * |toRat x - toRat y| := by
  obtain ⟨hx, hy⟩ := finite_of_sub hxy
  rw [(roundsTo_sub hx hy).toRat_eq hxy]
  obtain ⟨m, hm⟩ := isMultiple_toRat x
  obtain ⟨n, hn⟩ := isMultiple_toRat y
  exact abs_rounded_sub_le_of_multiple ⟨m - n, by rw [hm, hn, Int.cast_sub, sub_mul]⟩

/-! ## 4. Doubling and halving -/

theorem toRat_two : toRat 2.0 = 2 := by
  have h : toRat 2.0 = (2 ^ 52 : Nat) * 2 ^ (-51 : Int) := rfl
  rw [h]
  norm_num

theorem toRat_half : toRat 0.5 = 1 / 2 := by
  have h : toRat 0.5 = (2 ^ 52 : Nat) * 2 ^ (-53 : Int) := rfl
  rw [h]
  norm_num

/-- Doubling is exact, unless it leads out of range. -/
theorem toRat_two_mul (hx : (2.0 * x).isFinite = true) : toRat (2.0 * x) = 2 * toRat x := by
  have hfinite := (finite_of_mul hx).2
  rw [(roundsTo_mul rfl hfinite).toRat_eq hx, toRat_two]
  obtain ⟨m, e, hm, he, hme⟩ := onGrid_exactValue (canonical_unpacked x)
  refine rounded_of_onGrid ⟨m, e + 1, hm, by omega, ?_⟩
  rw [toRat, hme, zpow_add₀ two_ne_zero]
  ring

/-- Halving never leads out of range. -/
theorem isFinite_half_mul (hx : x.isFinite = true) : (0.5 * x).isFinite = true := by
  have hround := roundsTo_mul (x := 0.5) rfl hx
  rw [toRat_half, one_div_mul_eq_div] at hround
  rcases le_total 0 (toRat x) with hsign | hsign
  · exact finite_of_between (a := 0.0) rfl hx
      ((roundsTo_self rfl).le hround (by rw [toRat_zero]; linarith))
      (hround.le (roundsTo_self hx) (by linarith))
  · exact finite_of_between (b := 0.0) hx rfl
      ((roundsTo_self hx).le hround (by linarith))
      (hround.le (roundsTo_self rfl) (by rw [toRat_zero]; linarith))

/-- It loses at most the last bit of a number beside the least exponent. -/
theorem abs_toRat_half_mul_sub_le (hx : x.isFinite = true) :
    |toRat (0.5 * x) - toRat x / 2| ≤ 2 ^ (-1075 : ℤ) := by
  rw [(roundsTo_mul rfl hx).toRat_eq (isFinite_half_mul hx), toRat_half, one_div_mul_eq_div]
  obtain ⟨m, e, hm, he, hme⟩ := onGrid_exactValue (canonical_unpacked x)
  rcases he.eq_or_lt with rfl | he
  · refine abs_rounded_sub_le_half ?_
    rw [toRat, hme, mul_div_assoc, two_pow_neg_1074_div_two, abs_mul,
      abs_of_pos (by positivity : (0 : ℚ) < 2 ^ (-1075 : ℤ))]
    calc |(m : ℚ)| * 2 ^ (-1075 : ℤ) < 2 ^ (53 : ℤ) * 2 ^ (-1075 : ℤ) :=
          mul_lt_mul_of_pos_right (by exact_mod_cast hm) (by positivity)
      _ = 2 ^ (-1022 : ℤ) := by rw [← zpow_add₀ two_ne_zero]; rfl
      _ < 2 ^ (-1021 : ℤ) := zpow_lt_zpow_right₀ one_lt_two (by norm_num)
  · have hgrid : OnGrid (toRat x / 2) := by
      refine ⟨m, e - 1, hm, by omega, ?_⟩
      rw [toRat, hme, zpow_sub_one₀ two_ne_zero, div_eq_mul_inv, mul_assoc]
    rw [rounded_of_onGrid hgrid, sub_self, abs_zero]
    positivity

end Downhill.Binary64

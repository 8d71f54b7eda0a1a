import Mathlib.Algebra.Order.Field.Power
import Mathlib.Data.Int.Log
import Mathlib.Data.Rat.Floor
import Mathlib.Tactic.Linarith
import Mathlib.Tactic.Positivity
import Mathlib.Tactic.Ring

/-! # Rounding to 53 significant bits

What an exact number becomes when it has to be written as an integer of at most 53 bits times a
power of two, and the power may not be less than `2 ^ -1074`.  Nothing here has an upper end: what
is too large for a machine number is rounded all the same, and `Proofs/Binary64/Encoding.lean` says
what becomes of it.

Two facts carry everything that is proved about machine arithmetic.

* `rounded_mono`: rounding keeps the order.  Within one power of two it is the rounding to integers
  that does so; from one power of two to a larger one, the power between them is rounded to itself.
* `rounded_of_onGrid`: a number that can be written in this way is rounded to itself.
-/

namespace Downhill.Binary64

/-! ## 1. Integers -/

/-- The integer nearest to `x`, and of two nearest ones the even one. -/
def nearestEven (x : ℚ) : ℤ :=
  if Int.fract x < 1 / 2 then ⌊x⌋
  else if Int.fract x = 1 / 2 then ⌊x⌋ + ⌊x⌋ % 2
  else ⌊x⌋ + 1

theorem nearestEven_of_lt {x : ℚ} (h : Int.fract x < 1 / 2) : nearestEven x = ⌊x⌋ := if_pos h

theorem nearestEven_of_eq {x : ℚ} (h : Int.fract x = 1 / 2) :
    nearestEven x = ⌊x⌋ + ⌊x⌋ % 2 := by
  rw [nearestEven, if_neg h.not_lt, if_pos h]

theorem nearestEven_of_gt {x : ℚ} (h : 1 / 2 < Int.fract x) : nearestEven x = ⌊x⌋ + 1 := by
  rw [nearestEven, if_neg h.not_gt, if_neg h.ne']

theorem floor_le_nearestEven (x : ℚ) : ⌊x⌋ ≤ nearestEven x := by
  unfold nearestEven
  split_ifs <;> omega

theorem nearestEven_le_floor_add_one (x : ℚ) : nearestEven x ≤ ⌊x⌋ + 1 := by
  unfold nearestEven
  split_ifs <;> omega

theorem nearestEven_intCast (n : ℤ) : nearestEven (n : ℚ) = n := by
  simp [nearestEven]

/-- Rounding to integers keeps the order: with equal integer parts the fractions decide. -/
theorem nearestEven_mono {x y : ℚ} (h : x ≤ y) : nearestEven x ≤ nearestEven y := by
  rcases (Int.floor_mono h).lt_or_eq with hlt | heq
  · calc nearestEven x ≤ ⌊x⌋ + 1 := nearestEven_le_floor_add_one x
      _ ≤ ⌊y⌋ := hlt
      _ ≤ nearestEven y := floor_le_nearestEven y
  · have hfract : Int.fract x ≤ Int.fract y := by
      rw [Int.fract, Int.fract, heq]
      exact sub_le_sub_right h _
    rcases lt_trichotomy (Int.fract x) (1 / 2) with hx | hx | hx
    · rw [nearestEven_of_lt hx, heq]
      exact floor_le_nearestEven y
    · rcases (hx.symm.trans_le hfract).lt_or_eq with hy | hy
      · rw [nearestEven_of_eq hx, nearestEven_of_gt hy]
        omega
      · rw [nearestEven_of_eq hx, nearestEven_of_eq hy.symm, heq]
    · rw [nearestEven_of_gt hx, nearestEven_of_gt (hx.trans_le hfract), heq]

/-! ## 2. Positive numbers -/

/-- The exponent of the last place of a positive number that is written with 53 bits. -/
def lastPlace (v : ℚ) : ℤ := max (Int.log 2 v - 52) (-1074)

/-- A positive number, rounded to a multiple of its last place. -/
def roundedMagnitude (v : ℚ) : ℚ := nearestEven (v / 2 ^ lastPlace v) * 2 ^ lastPlace v

theorem neg_1074_le_lastPlace (v : ℚ) : -1074 ≤ lastPlace v := le_max_right _ _

theorem lastPlace_mono {v w : ℚ} (hv : 0 < v) (h : v ≤ w) : lastPlace v ≤ lastPlace w :=
  max_le_max_right _ (sub_le_sub_right (Int.log_mono_right hv h) _)

/-- In units of its last place a number is less than `2 ^ 53`. -/
theorem lt_two_pow_lastPlace (v : ℚ) : v < 2 ^ 53 * 2 ^ lastPlace v := by
  calc v < (2 : ℕ) ^ (Int.log 2 v + 1) := Int.lt_zpow_succ_log_self (by norm_num) v
    _ ≤ 2 ^ (53 + lastPlace v) := by
      rw [Nat.cast_ofNat]
      refine zpow_le_zpow_right₀ one_le_two ?_
      have : Int.log 2 v - 52 ≤ lastPlace v := le_max_left _ _
      omega
    _ = 2 ^ 53 * 2 ^ lastPlace v := by rw [zpow_add₀ two_ne_zero]; norm_num

/-- In units of its last place it is at least `2 ^ 52`, unless it is near zero. -/
theorem two_pow_lastPlace_le {v : ℚ} (hv : 0 < v) (h : lastPlace v ≠ -1074) :
    2 ^ 52 * 2 ^ lastPlace v ≤ v := by
  have heq : lastPlace v = Int.log 2 v - 52 := by unfold lastPlace at h ⊢; omega
  calc (2 : ℚ) ^ 52 * 2 ^ lastPlace v = 2 ^ (52 + lastPlace v) := by
        rw [zpow_add₀ two_ne_zero]; norm_num
    _ = ((2 : ℕ) : ℚ) ^ Int.log 2 v := by rw [heq]; norm_num
    _ ≤ v := Int.zpow_log_le_self (by norm_num) hv

theorem nearestEven_lastPlace_le (v : ℚ) : nearestEven (v / 2 ^ lastPlace v) ≤ 2 ^ 53 := by
  have h : v / 2 ^ lastPlace v ≤ ((2 ^ 53 : ℤ) : ℚ) := by
    rw [div_le_iff₀ (by positivity)]
    exact_mod_cast (lt_two_pow_lastPlace v).le
  simpa only [nearestEven_intCast] using nearestEven_mono h

theorem le_nearestEven_lastPlace {v : ℚ} (hv : 0 < v) (h : lastPlace v ≠ -1074) :
    2 ^ 52 ≤ nearestEven (v / 2 ^ lastPlace v) := by
  have h : ((2 ^ 52 : ℤ) : ℚ) ≤ v / 2 ^ lastPlace v := by
    rw [le_div_iff₀ (by positivity)]
    exact_mod_cast two_pow_lastPlace_le hv h
  simpa only [nearestEven_intCast] using nearestEven_mono h

theorem nearestEven_lastPlace_nonneg {v : ℚ} (hv : 0 ≤ v) :
    0 ≤ nearestEven (v / 2 ^ lastPlace v) := by
  have h : ((0 : ℤ) : ℚ) ≤ v / 2 ^ lastPlace v := by
    rw [Int.cast_zero]
    positivity
  simpa only [nearestEven_intCast] using nearestEven_mono h

theorem roundedMagnitude_nonneg {v : ℚ} (hv : 0 ≤ v) : 0 ≤ roundedMagnitude v :=
  mul_nonneg (by exact_mod_cast nearestEven_lastPlace_nonneg hv) (by positivity)

theorem roundedMagnitude_zero : roundedMagnitude (0 : ℚ) = 0 := by
  have h : nearestEven (0 : ℚ) = 0 := by exact_mod_cast nearestEven_intCast 0
  simp [roundedMagnitude, h]

/-- Rounding keeps the order of positive numbers. -/
theorem roundedMagnitude_mono {v w : ℚ} (hv : 0 < v) (h : v ≤ w) :
    roundedMagnitude v ≤ roundedMagnitude w := by
  rcases (lastPlace_mono hv h).lt_or_eq with hlt | heq
  · -- `2 ^ 53` last places of `v` are at most `2 ^ 52` last places of `w`
    have hw : lastPlace w ≠ -1074 := by have := neg_1074_le_lastPlace v; omega
    calc roundedMagnitude v ≤ 2 ^ 53 * 2 ^ lastPlace v :=
          mul_le_mul_of_nonneg_right (by exact_mod_cast nearestEven_lastPlace_le v) (by positivity)
      _ = 2 ^ 52 * 2 ^ (lastPlace v + 1) := by rw [zpow_add_one₀ two_ne_zero]; ring
      _ ≤ 2 ^ 52 * 2 ^ lastPlace w :=
          mul_le_mul_of_nonneg_left (zpow_le_zpow_right₀ one_le_two (by omega)) (by positivity)
      _ ≤ roundedMagnitude w :=
          mul_le_mul_of_nonneg_right
            (by exact_mod_cast le_nearestEven_lastPlace (hv.trans_le h) hw) (by positivity)
  · unfold roundedMagnitude
    rw [heq]
    refine mul_le_mul_of_nonneg_right ?_ (by positivity)
    exact_mod_cast nearestEven_mono (div_le_div_of_nonneg_right h (by positivity))

/-! ## 3. All numbers -/

/-- The number that `v` is rounded to.  Signs make no difference to the magnitude. -/
def rounded (v : ℚ) : ℚ := if v < 0 then -roundedMagnitude (-v) else roundedMagnitude v

theorem rounded_of_nonneg {v : ℚ} (hv : 0 ≤ v) : rounded v = roundedMagnitude v :=
  if_neg (not_lt.mpr hv)

theorem rounded_neg (v : ℚ) : rounded (-v) = -rounded v := by
  rcases lt_trichotomy v 0 with hv | rfl | hv
  · rw [rounded_of_nonneg (neg_nonneg.mpr hv.le), rounded, if_pos hv, neg_neg]
  · simp [rounded, roundedMagnitude_zero]
  · rw [rounded_of_nonneg hv.le, rounded, if_pos (neg_lt_zero.mpr hv), neg_neg]

theorem rounded_zero : rounded (0 : ℚ) = 0 := by
  rw [rounded_of_nonneg le_rfl, roundedMagnitude_zero]

theorem rounded_nonneg {v : ℚ} (hv : 0 ≤ v) : 0 ≤ rounded v := by
  rw [rounded_of_nonneg hv]
  exact roundedMagnitude_nonneg hv

/-- **Rounding keeps the order.** -/
theorem rounded_mono {v w : ℚ} (h : v ≤ w) : rounded v ≤ rounded w := by
  rcases lt_or_ge 0 v with hv | hv
  · rw [rounded_of_nonneg hv.le, rounded_of_nonneg (hv.le.trans h)]
    exact roundedMagnitude_mono hv h
  · have hv' : rounded v ≤ 0 := by
      have := rounded_nonneg (neg_nonneg.mpr hv)
      rwa [rounded_neg, neg_nonneg] at this
    rcases lt_or_ge w 0 with hw | hw
    · have := roundedMagnitude_mono (neg_pos.mpr hw) (neg_le_neg h)
      rwa [← neg_le_neg_iff, ← rounded_neg, ← rounded_neg, rounded_of_nonneg (by linarith),
        rounded_of_nonneg (by linarith)]
    · exact hv'.trans (rounded_nonneg hw)

/-! ## 4. Numbers that are rounded to themselves -/

/-- An integer of at most 53 bits times a power of two that is not too small. -/
def OnGrid (v : ℚ) : Prop := ∃ m e : ℤ, |m| < 2 ^ 53 ∧ -1074 ≤ e ∧ v = m * 2 ^ e

theorem OnGrid.neg {v : ℚ} (h : OnGrid v) : OnGrid (-v) := by
  obtain ⟨m, e, hm, he, rfl⟩ := h
  exact ⟨-m, e, by rwa [abs_neg], he, by push_cast; ring⟩

theorem OnGrid.zero : OnGrid (0 : ℚ) := ⟨0, 0, by norm_num, by norm_num, by simp⟩

/-- In units of a smaller exponent an integer is an integer still. -/
theorem intCast_mul_two_pow (n : ℤ) {e k : ℤ} (h : e ≤ k) :
    ((n * 2 ^ (k - e).toNat : ℤ) : ℚ) * 2 ^ e = n * 2 ^ k := by
  have hk : k = (k - e).toNat + e := by omega
  conv_rhs => rw [hk, zpow_add₀ two_ne_zero, zpow_natCast, ← mul_assoc]
  push_cast
  rfl

/-- Such a number is a multiple of the least power. -/
theorem OnGrid.isMultiple {v : ℚ} (h : OnGrid v) : ∃ n : ℤ, v = n * 2 ^ (-1074 : ℤ) := by
  obtain ⟨m, e, -, he, rfl⟩ := h
  exact ⟨_, (intCast_mul_two_pow m he).symm⟩

/-- A positive number on the grid is an integer in units of its last place. -/
theorem roundedMagnitude_of_onGrid {v : ℚ} (hv : 0 < v) (h : OnGrid v) :
    roundedMagnitude v = v := by
  obtain ⟨m, e, hm, he, hve⟩ := h
  have hlog : Int.log 2 v < 53 + e := by
    refine (Int.lt_zpow_iff_log_lt (by norm_num) hv).mp ?_
    calc v ≤ |(m : ℚ)| * 2 ^ e := by
          rw [hve]
          exact mul_le_mul_of_nonneg_right (le_abs_self _) (by positivity)
      _ < 2 ^ 53 * 2 ^ e := mul_lt_mul_of_pos_right (by exact_mod_cast hm) (by positivity)
      _ = ((2 : ℕ) : ℚ) ^ (53 + e) := by
          rw [Nat.cast_ofNat, zpow_add₀ two_ne_zero]
          norm_num
  have hle : lastPlace v ≤ e := by unfold lastPlace; omega
  have hint : v / 2 ^ lastPlace v = ((m * 2 ^ (e - lastPlace v).toNat : ℤ) : ℚ) := by
    rw [div_eq_iff (by positivity), intCast_mul_two_pow m hle]
    exact hve
  rw [roundedMagnitude, hint, nearestEven_intCast, ← hint, div_mul_cancel₀ _ (by positivity)]

/-- **A number on the grid is rounded to itself.** -/
theorem rounded_of_onGrid {v : ℚ} (h : OnGrid v) : rounded v = v := by
  rcases lt_trichotomy v 0 with hv | rfl | hv
  · rw [← neg_neg v, rounded_neg, rounded_of_nonneg (neg_nonneg.mpr hv.le),
      roundedMagnitude_of_onGrid (neg_pos.mpr hv) h.neg]
  · exact rounded_zero
  · rw [rounded_of_nonneg hv.le, roundedMagnitude_of_onGrid hv h]

end Downhill.Binary64

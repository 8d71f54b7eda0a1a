import Downhill.Proofs.Binary64.Words

/-! # Signs

Every number that is not undefined has a sign, the zeros too, and it stands in the leading bit of
its word.  The order of numbers does not see the sign of a zero, and the exact value loses it, so
what is known of either says nothing about the sign of a product that has become a zero.

* `signBit_eq`: the leading bit of a word is the sign of its decoded form.
* `signBit_mul`, `signBit_div`: products and quotients that are not undefined are negative exactly
  if one operand is and the other is not, however small or large they are.
-/

namespace Downhill.Binary64

open Float.Model (Format UnpackedFloat)
open Float.Model.UnpackedFloat

/-! ## 1. The sign of a form -/

/-- The sign of a form.  An undefined one has none and counts as positive. -/
def signOf : UnpackedFloat → Sign
  | .infinity s => s
  | .zero s => s
  | .finite s _ _ _ => s
  | .notANumber => .positive

variable {u w : UnpackedFloat}

theorem signOf_saturated (u : UnpackedFloat) : signOf (saturated u) = signOf u := by
  cases u with
  | finite s m e hm =>
    simp only [saturated]
    split <;> rfl
  | _ => rfl

theorem isNaN_saturated (u : UnpackedFloat) : (saturated u).isNaN = u.isNaN := by
  cases u with
  | finite s m e hm =>
    simp only [saturated]
    split <;> rfl
  | _ => rfl

/-- Rounding keeps the sign, also where nothing but a zero is left. -/
theorem signOf_roundWithAccuracy (s : Sign) (m : Nat) (e : Int) (accuracy : Accuracy) :
    signOf (roundWithAccuracy .binary64 s m e accuracy) = s := by
  simp only [roundWithAccuracy_eq, ofParts]
  split <;> rfl

/-- What is undefined stays so in a product. -/
theorem defined_operands_of_mul (h : (UnpackedFloat.mul .binary64 u w).isNaN = false) :
    u.isNaN = false ∧ w.isNaN = false := by
  cases u <;> cases w <;> trivial

theorem defined_operands_of_div (h : (UnpackedFloat.div .binary64 u w).isNaN = false) :
    u.isNaN = false ∧ w.isNaN = false := by
  cases u <;> cases w <;> trivial

/-- **A product has the product of the signs.** -/
theorem signOf_mul (h : (UnpackedFloat.mul .binary64 u w).isNaN = false) :
    signOf (UnpackedFloat.mul .binary64 u w) = signOf u * signOf w := by
  cases u <;> cases w
  case finite.finite => exact signOf_roundWithAccuracy _ _ _ _
  case infinity.zero | zero.infinity => cases h
  case notANumber.notANumber | notANumber.infinity | notANumber.zero | notANumber.finite |
    infinity.notANumber | zero.notANumber | finite.notANumber => cases h
  all_goals rfl

/-- **A quotient has the quotient of the signs.** -/
theorem signOf_div (h : (UnpackedFloat.div .binary64 u w).isNaN = false) :
    signOf (UnpackedFloat.div .binary64 u w) = signOf u / signOf w := by
  cases u <;> cases w
  case finite.finite => exact signOf_roundWithAccuracy _ _ _ _
  case infinity.infinity | zero.zero => cases h
  case notANumber.notANumber | notANumber.infinity | notANumber.zero | notANumber.finite |
    infinity.notANumber | zero.notANumber | finite.notANumber => cases h
  all_goals rfl

/-! ## 2. The leading bit of a word -/

/-- The leading bit of the word of a number, which is set for the negative numbers and for the
negative zero. -/
def signBit (x : Float) : Bool := x.toBits.toBitVec.msb

theorem signOf_decoded {s : Sign} {e m : Nat} (h : (decoded s e m).isNaN = false) :
    signOf (decoded s e m) = s := by
  rw [decoded] at h ⊢
  split_ifs at h ⊢
  · rfl
  · cases h
  all_goals rfl

variable {x y : Float}

/-- **The leading bit is the sign.** -/
theorem signBit_eq (hx : x.isNaN = false) :
    signBit x = (signOf (unpacked x) == .negative) := by
  have hform : unpacked x = decoded (.ofBitVec (@unpackSign .binary64 x.toBits.toBitVec))
      (x.toBits.toBitVec.toNat / 2 ^ 52 % 2 ^ 11) (x.toBits.toBitVec.toNat % 2 ^ 52) :=
    unpack_eq_fields x.toBits.toBitVec
  change (unpacked x).isNaN = false at hx
  rw [hform] at hx ⊢
  rw [signOf_decoded hx, signBit, BitVec.msb_eq_decide]
  have hpositive := signField_positive_iff x.toBits.toBitVec
  cases hs : Sign.ofBitVec (@unpackSign .binary64 x.toBits.toBitVec) with
  | positive =>
    rw [hs] at hpositive
    exact decide_eq_false (not_le.mpr (hpositive.mp rfl))
  | negative =>
    rw [hs] at hpositive
    exact decide_eq_true (not_lt.mp fun hlt => by cases hpositive.mpr hlt)

/-- **A product is negative exactly if one factor is and the other is not.** -/
theorem signBit_mul (h : (x * y).isNaN = false) : signBit (x * y) = (signBit x ^^ signBit y) := by
  have hform : (UnpackedFloat.mul .binary64 (unpacked x) (unpacked y)).isNaN = false := by
    rw [← isNaN_saturated, ← unpacked_mul]
    exact h
  obtain ⟨hx, hy⟩ := defined_operands_of_mul hform
  rw [signBit_eq h, signBit_eq hx, signBit_eq hy, unpacked_mul, signOf_saturated, signOf_mul hform]
  cases signOf (unpacked x) <;> cases signOf (unpacked y) <;> rfl

/-- **So is a quotient.** -/
theorem signBit_div (h : (x / y).isNaN = false) : signBit (x / y) = (signBit x ^^ signBit y) := by
  have hform : (UnpackedFloat.div .binary64 (unpacked x) (unpacked y)).isNaN = false := by
    rw [← isNaN_saturated, ← unpacked_div]
    exact h
  obtain ⟨hx, hy⟩ := defined_operands_of_div hform
  rw [signBit_eq h, signBit_eq hx, signBit_eq hy, unpacked_div, signOf_saturated, signOf_div hform]
  cases signOf (unpacked x) <;> cases signOf (unpacked y) <;> rfl

/-! ## 3. Signs and order -/

/-- What is greater than zero has no sign bit. -/
theorem signBit_of_pos (h : 0.0 < x) : signBit x = false := by
  rw [signBit_eq (defined_of_le (le_of_lt h)).2]
  rw [lt_iff_unpacked] at h
  cases hx : unpacked x with
  | notANumber => rfl
  | zero s =>
    rw [hx] at h
    cases h
  | infinity s | finite s m e hm =>
    rw [hx] at h
    cases s
    · cases h
    · rfl

/-- A finite number without a sign bit is not negative. -/
theorem toRat_nonneg_of_signBit (hx : x.isFinite = true) (h : signBit x = false) :
    0 ≤ toRat x := by
  rw [signBit_eq (defined_of_finite hx)] at h
  obtain ⟨s, hs⟩ | ⟨s, m, e, hm, hs⟩ := unpacked_cases hx
  · rw [toRat, hs, exactValue_zero]
  · rw [hs] at h
    rw [toRat, hs]
    cases s
    · cases h
    · exact (by positivity : (0 : ℚ) ≤ m * 2 ^ e)

end Downhill.Binary64

import Downhill.Objective.Quadratic
import Downhill.Proofs.Binary64.Precision

/-! # Accepted forms and positive definite forms

A form is positive definite if `0 < a` and `0 < 4 a c - b²` in exact numbers.  The test that
coefficients have to pass asks for the same of rounded numbers, and it asks that they do *not read*
as zero or less.

* Rounding never makes a form pass that is not positive definite: where `4 a c ≤ b²`, the rounded
  products are in the same order, and their difference does not read as positive
  (`discriminant_pos`).
* Overflow does, in the two ways that remain.  Where four times `a` is infinite, the product with
  `c` has lost all measure of `c`; and where both products are infinite, their difference is
  undefined and is not less than anything (`accepted_indefinite`).
-/

namespace Downhill.QuadraticForm

open Binary64

theorem toRat_four : toRat 4.0 = 4 := by
  have h : toRat 4.0 = (2 ^ 52 : Nat) * 2 ^ (-50 : Int) := rfl
  rw [h]
  norm_num

/-- Four times a finite number is exact, unless it is too large. -/
theorem toRat_four_mul {a : Float} (ha : a.isFinite = true) (h : (4.0 * a).isFinite = true) :
    toRat (4.0 * a) = 4 * toRat a := by
  rw [(roundsTo_mul rfl ha).toRat_eq h, toRat_four]
  obtain ⟨m, e, hm, he, hme⟩ := onGrid_exactValue (canonical_unpacked a)
  refine rounded_of_onGrid ⟨m, e + 2, hm, by omega, ?_⟩
  rw [toRat, hme, zpow_add₀ two_ne_zero]
  ring

/-- **Within range the test is exact**: coefficients with a rounded discriminant that is defined and
does not read as zero or less have a positive exact discriminant. -/
theorem discriminant_pos {a b c : Float} (hfinite : finiteCoefficients a b c = true)
    (hfour : (4.0 * a).isFinite = true) (hdefined : (discriminant a b c).isNaN = false)
    (h : ¬discriminant a b c ≤ 0.0) :
    0 < 4 * toRat a * toRat c - toRat b ^ 2 := by
  obtain ⟨ha, hb, hc⟩ := finiteCoefficients_iff.mp hfinite
  by_contra hneg
  have hproducts : 4.0 * a * c ≤ b * b := by
    refine (roundsTo_mul hfour hc).le (roundsTo_mul hb hb) ?_
    rw [toRat_four_mul ha hfour, ← sq]
    linarith
  exact h (sub_le_zero hproducts hdefined)

/-- A finite coefficient that does not read as zero or less is positive. -/
theorem toRat_pos {a : Float} (ha : a.isFinite = true) (h : ¬a ≤ 0.0) : 0 < toRat a := by
  rwa [le_iff_toRat ha rfl, toRat_zero, not_le] at h

/-- **What acceptance says of the exact coefficients.**  The first one is positive, and so is the
discriminant, as long as four times the first one is finite and the rounded discriminant is not
undefined. -/
theorem ofCoefficients_definite {a b c : Float} {q : QuadraticForm Float}
    (h : ofCoefficients a b c = .ok q) :
    (q.a = a ∧ q.b = b ∧ q.c = c) ∧ 0 < toRat q.a ∧
      ((4.0 * q.a).isFinite = true → (discriminant q.a q.b q.c).isNaN = false →
        0 < 4 * toRat q.a * toRat q.c - toRat q.b ^ 2) := by
  obtain ⟨hfinite, hpos, hdiscriminant⟩ := q.accepted
  refine ⟨?_, ?_, fun hfour hdefined => discriminant_pos hfinite hfour hdefined hdiscriminant⟩
  · unfold ofCoefficients at h
    split_ifs at h
    cases h
    exact ⟨rfl, rfl, rfl⟩
  · exact toRat_pos (finiteCoefficients_iff.mp hfinite).1 hpos

/-- The built-in form is positive definite. -/
theorem bundled_definite :
    0 < toRat bundled.a ∧ 0 < 4 * toRat bundled.a * toRat bundled.c - toRat bundled.b ^ 2 := by
  have hnew : ofCoefficients bundled.a bundled.b bundled.c = .ok bundled := dif_pos bundled.accepted
  obtain ⟨-, hpos, hdefinite⟩ := ofCoefficients_definite hnew
  exact ⟨hpos, hdefinite (by decide +kernel) (by decide +kernel)⟩

/-- Four times a product of powers of two. -/
theorem four_mul_two_pow (j k : Int) : (4 * 2 ^ j * 2 ^ k : ℚ) = 2 ^ (j + k + 2) := by
  rw [zpow_add₀ two_ne_zero, zpow_add₀ two_ne_zero]
  norm_num
  ring

/-- **Two forms that are accepted and are not positive definite.**  With `a = 2 ^ 1022`, `b = 1` and
`c = 2 ^ -1074` four times `a` is infinite, and with it the rounded discriminant; the exact one is
`2 ^ -50 - 1`.  With `a = c = 2 ^ 600` and `b = 2 ^ 700` both products are infinite and the rounded
discriminant is undefined; the exact one is `2 ^ 1202 - 2 ^ 1400`. -/
theorem accepted_indefinite :
    (∃ q, ofCoefficients (Float.ofBits 0x7fd0000000000000) (Float.ofBits 0x3ff0000000000000)
        (Float.ofBits 0x0000000000000001) = .ok q ∧
      (4.0 * q.a).isFinite = false ∧
      4 * toRat q.a * toRat q.c - toRat q.b ^ 2 = 2 ^ (-50 : Int) - 1 ∧
      4 * toRat q.a * toRat q.c - toRat q.b ^ 2 < 0) ∧
    (∃ q, ofCoefficients (Float.ofBits 0x6570000000000000) (Float.ofBits 0x6bb0000000000000)
        (Float.ofBits 0x6570000000000000) = .ok q ∧
      (discriminant q.a q.b q.c).isNaN = true ∧
      4 * toRat q.a * toRat q.c - toRat q.b ^ 2 = 2 ^ (1202 : Int) - 2 ^ (1400 : Int) ∧
      4 * toRat q.a * toRat q.c - toRat q.b ^ 2 < 0) := by
  have hfirst : 4 * toRat (.ofBits 0x7fd0000000000000) * toRat (.ofBits 0x0000000000000001) -
      toRat (.ofBits 0x3ff0000000000000) ^ 2 = 2 ^ (-50 : Int) - 1 := by
    have ha : toRat (.ofBits 0x7fd0000000000000) = 2 ^ (1022 : Int) := two_pow_mul 970
    have hb : toRat (.ofBits 0x3ff0000000000000) = (2 ^ 52 : Nat) * 2 ^ (-52 : Int) := rfl
    have hc : toRat (.ofBits 0x0000000000000001) = (1 : Nat) * 2 ^ (-1074 : Int) := rfl
    rw [ha, hb, hc, two_pow_mul, Nat.cast_one, one_mul, four_mul_two_pow]
    norm_num
  have hsecond : 4 * toRat (.ofBits 0x6570000000000000) * toRat (.ofBits 0x6570000000000000) -
      toRat (.ofBits 0x6bb0000000000000) ^ 2 = 2 ^ (1202 : Int) - 2 ^ (1400 : Int) := by
    have ha : toRat (.ofBits 0x6570000000000000) = 2 ^ (600 : Int) := two_pow_mul 548
    have hb : toRat (.ofBits 0x6bb0000000000000) = 2 ^ (700 : Int) := two_pow_mul 648
    rw [ha, hb, four_mul_two_pow, sq, ← zpow_add₀ two_ne_zero]
    rfl
  refine ⟨⟨⟨_, _, _, by decide +kernel⟩, dif_pos _, by decide +kernel, hfirst, ?_⟩,
    ⟨⟨_, _, _, by decide +kernel⟩, dif_pos _, by decide +kernel, hsecond, ?_⟩⟩
  · rw [hfirst]
    norm_num
  · rw [hsecond, sub_neg]
    exact zpow_lt_zpow_right₀ one_lt_two (by norm_num)

end Downhill.QuadraticForm

import Downhill.Binary64
import Downhill.Proofs.Binary64.Operations

/-! # What is known of machine numbers

The operations of `Float` read through their decoded forms.

* An infinite or undefined operand never gives a finite result, except below a division
  (`finite_of_add`, `finite_of_sub`, `finite_of_mul`, `finite_of_div`).
* `RoundsTo x v`: the number `x` is what rounding the exact value `v` gives, and infinite where that
  is too large.  Sum, difference, product and quotient of finite numbers round to the exact results.
* `RoundsTo.le`: exact values in order give machine numbers in order, also where one of them or
  both are infinite.  Nothing else is needed to compare results of rounded arithmetic.
-/

namespace Downhill.Binary64

open Float.Model (Format UnpackedFloat)
open Float.Model.UnpackedFloat

/-! ## 1. Decoded forms -/

/-- The decoded form of a machine number. -/
def unpacked (x : Float) : UnpackedFloat := x.toModel.unpack

/-- The exact value of a finite machine number. -/
def toRat (x : Float) : ℚ := exactValue (unpacked x)

@[simp] theorem scalar_isFinite (x : Float) : Scalar.isFinite x = x.isFinite := rfl

theorem canonical_unpacked (x : Float) : Canonical (unpacked x) := (canonical_unpack _).1

theorem saturated_unpacked (x : Float) : saturated (unpacked x) = unpacked x :=
  (canonical_unpack _).2

/-- The decoded form of a finite number is a zero or has a mantissa. -/
theorem unpacked_cases {x : Float} (hx : x.isFinite = true) :
    (∃ s, unpacked x = .zero s) ∨ ∃ s m e hm, unpacked x = .finite s m e hm := finite_cases hx

theorem unpacked_add (x y : Float) :
    unpacked (x + y) = saturated (UnpackedFloat.add .binary64 (unpacked x) (unpacked y)) :=
  unpack_pack (canonical_add (canonical_unpacked x) (canonical_unpacked y))

theorem unpacked_sub (x y : Float) :
    unpacked (x - y) = saturated (UnpackedFloat.sub .binary64 (unpacked x) (unpacked y)) :=
  unpack_pack (canonical_sub (canonical_unpacked x) (canonical_unpacked y))

theorem unpacked_mul (x y : Float) :
    unpacked (x * y) = saturated (UnpackedFloat.mul .binary64 (unpacked x) (unpacked y)) :=
  unpack_pack (canonical_mul (canonical_unpacked x) (canonical_unpacked y))

theorem unpacked_div (x y : Float) :
    unpacked (x / y) = saturated (UnpackedFloat.div .binary64 (unpacked x) (unpacked y)) :=
  unpack_pack (canonical_div (unpacked x) (unpacked y))

theorem unpacked_neg (x : Float) : unpacked (-x) = (unpacked x).neg := by
  have h : saturated (unpacked x).neg = (saturated (unpacked x)).neg := by
    cases unpacked x with
    | finite s m e hm => simp only [saturated, UnpackedFloat.neg]; split <;> rfl
    | _ => rfl
  rw [saturated_unpacked] at h
  exact (unpack_pack (canonical_neg (canonical_unpacked x))).trans h

theorem unpacked_abs (x : Float) : unpacked x.abs = (unpacked x).abs := by
  have h : saturated (unpacked x).abs = (saturated (unpacked x)).abs := by
    cases unpacked x with
    | finite s m e hm => simp only [saturated, UnpackedFloat.abs]; split <;> rfl
    | _ => rfl
  rw [saturated_unpacked] at h
  exact (unpack_pack (canonical_abs (canonical_unpacked x))).trans h

variable {x y : Float}

/-- A finite number is a finite form that was not too large. -/
theorem finite_of_saturated {u : UnpackedFloat} (h : unpacked x = saturated u)
    (hx : x.isFinite = true) : u.isFinite = true := by
  change (unpacked x).isFinite = true at hx
  rw [h] at hx
  cases u <;> trivial

theorem finite_of_add (h : (x + y).isFinite = true) : x.isFinite = true ∧ y.isFinite = true :=
  finite_operands_of_add (finite_of_saturated (unpacked_add x y) h)

theorem finite_of_sub (h : (x - y).isFinite = true) : x.isFinite = true ∧ y.isFinite = true :=
  finite_operands_of_sub (finite_of_saturated (unpacked_sub x y) h)

theorem finite_of_mul (h : (x * y).isFinite = true) : x.isFinite = true ∧ y.isFinite = true :=
  finite_operands_of_mul (finite_of_saturated (unpacked_mul x y) h)

theorem finite_of_div (h : (x / y).isFinite = true) : x.isFinite = true :=
  finite_dividend_of_div (finite_of_saturated (unpacked_div x y) h)

/-! ## 2. Results that round an exact value -/

/-- The number is `v` rounded, and infinite where that is too large. -/
def RoundsTo (x : Float) (v : ℚ) : Prop := ∃ u, IsRounded v u ∧ unpacked x = saturated u

theorem roundsTo_self (hx : x.isFinite = true) : RoundsTo x (toRat x) :=
  ⟨unpacked x, isRounded_self (canonical_unpacked x) hx, (saturated_unpacked x).symm⟩

theorem roundsTo_add (hx : x.isFinite = true) (hy : y.isFinite = true) :
    RoundsTo (x + y) (toRat x + toRat y) :=
  ⟨_, isRounded_add (canonical_unpacked x) (canonical_unpacked y) hx hy, unpacked_add x y⟩

theorem roundsTo_sub (hx : x.isFinite = true) (hy : y.isFinite = true) :
    RoundsTo (x - y) (toRat x - toRat y) :=
  ⟨_, isRounded_sub (canonical_unpacked x) (canonical_unpacked y) hx hy, unpacked_sub x y⟩

theorem roundsTo_mul (hx : x.isFinite = true) (hy : y.isFinite = true) :
    RoundsTo (x * y) (toRat x * toRat y) :=
  ⟨_, isRounded_mul (canonical_unpacked x) (canonical_unpacked y) hx hy, unpacked_mul x y⟩

theorem roundsTo_div (hx : x.isFinite = true) (hy : y.isFinite = true) (h : toRat y ≠ 0) :
    RoundsTo (x / y) (toRat x / toRat y) :=
  ⟨_, isRounded_div h hx hy, unpacked_div x y⟩

theorem RoundsTo.toRat_eq {v : ℚ} (h : RoundsTo x v) (hx : x.isFinite = true) :
    toRat x = rounded v := by
  obtain ⟨u, hu, hxu⟩ := h
  have hfit : saturated u = u := by
    change (unpacked x).isFinite = true at hx
    rw [hxu] at hx
    cases u with
    | finite s m e hm =>
      simp only [saturated] at hx ⊢
      split_ifs at hx ⊢
      · rfl
      · cases hx
    | _ => rfl
  rw [toRat, hxu, hfit, hu.value]

/-- What rounds an exact value may be infinite but is not undefined. -/
theorem RoundsTo.isNaN {v : ℚ} (h : RoundsTo x v) : x.isNaN = false := by
  obtain ⟨u, hu, hxu⟩ := h
  change (unpacked x).isNaN = false
  rw [hxu]
  obtain ⟨s, rfl⟩ | ⟨s, m, e, hm, rfl⟩ := finite_cases hu.isFinite
  · rfl
  · simp only [saturated]
    split <;> rfl

/-! ## 3. Order -/

theorem le_iff_unpacked : x ≤ y ↔ (unpacked x).le (unpacked y) = true := decide_eq_true_iff

theorem lt_iff_unpacked : x < y ↔ (unpacked x).lt (unpacked y) = true := decide_eq_true_iff

theorem le_of_lt (h : x < y) : x ≤ y := by
  rw [lt_iff_unpacked, UnpackedFloat.lt, beq_iff_eq] at h
  rw [le_iff_unpacked, UnpackedFloat.le, h]
  rfl

/-- Canonical finite forms are ordered as their exact values. -/
theorem le_iff_exactValue {u w : UnpackedFloat} (hu : Canonical u) (hw : Canonical w)
    (fu : u.isFinite = true) (fw : w.isFinite = true) :
    u.le w = true ↔ exactValue u ≤ exactValue w := by
  rw [UnpackedFloat.le, compare_eq hu hw fu fw, Option.any_some, Ordering.isLE_iff_ne_gt]
  exact compare_le_iff_le

/-- Finite numbers are ordered as their exact values. -/
theorem le_iff_toRat (hx : x.isFinite = true) (hy : y.isFinite = true) :
    x ≤ y ↔ toRat x ≤ toRat y :=
  le_iff_unpacked.trans (le_iff_exactValue (canonical_unpacked x) (canonical_unpacked y) hx hy)

theorem lt_iff_toRat (hx : x.isFinite = true) (hy : y.isFinite = true) :
    x < y ↔ toRat x < toRat y := by
  rw [lt_iff_unpacked, UnpackedFloat.lt,
    compare_eq (canonical_unpacked x) (canonical_unpacked y) hx hy, beq_iff_eq, Option.some_inj]
  exact compare_lt_iff_lt

/-- Of finite numbers that are not in order the reverse is. -/
theorem lt_of_not_le (hx : x.isFinite = true) (hy : y.isFinite = true) (h : ¬x ≤ y) : y < x := by
  rwa [le_iff_toRat hx hy, not_le, ← lt_iff_toRat hy hx] at h

/-- Becoming infinite keeps the order: of two numbers with the same sign the one that becomes
infinite has the larger exponent. -/
theorem saturated_le {u w : UnpackedFloat} (fu : u.isFinite = true) (fw : w.isFinite = true)
    (h : u.le w = true) : (saturated u).le (saturated w) = true := by
  obtain ⟨s, rfl⟩ | ⟨s, m, e, hm, rfl⟩ := finite_cases fu <;>
    obtain ⟨t, rfl⟩ | ⟨t, n, k, hn, rfl⟩ := finite_cases fw <;>
    simp only [saturated]
  · exact h
  · split_ifs
    · exact h
    · cases t
      · cases h
      · rfl
  · split_ifs
    · exact h
    · cases s
      · rfl
      · cases h
  · split_ifs with he hk hk
    · exact h
    · have hlt : compare e k = .lt := compare_lt_iff_lt.mpr (by omega)
      cases s <;> cases t
      · simp [UnpackedFloat.le, UnpackedFloat.compare, hlt] at h
      · rfl
      · cases h
      · rfl
    · have hgt : compare e k = .gt := compare_gt_iff_gt.mpr (by omega)
      cases s <;> cases t
      · rfl
      · rfl
      · cases h
      · simp [UnpackedFloat.le, UnpackedFloat.compare, hgt] at h
    · cases s <;> cases t
      · rfl
      · rfl
      · cases h
      · rfl

/-- **Exact values in order give machine numbers in order.** -/
theorem RoundsTo.le {v v' : ℚ} (h : RoundsTo x v) (h' : RoundsTo y v') (hle : v ≤ v') :
    x ≤ y := by
  obtain ⟨u, hu, hxu⟩ := h
  obtain ⟨w, hw, hyw⟩ := h'
  rw [le_iff_unpacked, hxu, hyw]
  refine saturated_le hu.isFinite hw.isFinite ?_
  rw [le_iff_exactValue hu.canonical hw.canonical hu.isFinite hw.isFinite, hu.value, hw.value]
  exact rounded_mono hle

@[simp] theorem toRat_zero : toRat 0.0 = 0 := rfl

@[simp] theorem toRat_one : toRat 1.0 = 1 := by
  have h : toRat 1.0 = (2 ^ 52 : Nat) * 2 ^ (-52 : Int) := rfl
  rw [h]
  norm_num

end Downhill.Binary64

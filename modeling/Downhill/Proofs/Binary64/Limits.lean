import Downhill.Plane
import Downhill.Proofs.Binary64.Numbers

/-! # Infinite and undefined numbers

What arithmetic does where numbers end, as far as it can be said without looking at exact values.

* `finite_of_between`: what lies between finite numbers is finite.
* `sub_le_zero`: a difference of numbers in order does not read as positive, unless it is undefined.
* Products with zeros are zeros or undefined, and so are sums of them; nothing defined comes from an
  undefined number.
* Squares are not negative and not undefined, and neither are sums of squares.
* The hypotenuse of finite legs may be infinite but is not undefined; beside a leg that is not
  finite it does not read as at most a finite number.
-/

namespace Downhill.Binary64

open Float.Model (Format UnpackedFloat)
open Float.Model.UnpackedFloat

variable {x y : Float}

/-! ## 1. Kinds of numbers -/

/-- A number that is neither finite nor undefined is infinite. -/
theorem infinite_of_not_finite (hx : x.isFinite ≠ true) (h : x.isNaN = false) :
    ∃ s, unpacked x = .infinity s := by
  change (unpacked x).isFinite ≠ true at hx
  change (unpacked x).isNaN = false at h
  cases hu : unpacked x with
  | infinity s => exact ⟨s, rfl⟩
  | notANumber => rw [hu] at h; cases h
  | zero s => rw [hu] at hx; exact absurd rfl hx
  | finite s m e hm => rw [hu] at hx; exact absurd rfl hx

theorem point_isFinite_iff {p : Point Float} :
    p.isFinite = true ↔ p.x.isFinite = true ∧ p.y.isFinite = true := by
  simp [Point.isFinite]

theorem defined_of_finite (hx : x.isFinite = true) : x.isNaN = false := (roundsTo_self hx).isNaN

theorem isNaN_iff_unpacked : x.isNaN = true ↔ unpacked x = .notANumber := by
  change (unpacked x).isNaN = true ↔ _
  cases unpacked x with
  | notANumber => exact iff_of_true rfl rfl
  | _ => exact iff_of_false (by rintro ⟨⟩) (by rintro ⟨⟩)

/-- What is compared is not undefined. -/
theorem defined_of_le (h : x ≤ y) : x.isNaN = false ∧ y.isNaN = false := by
  rw [le_iff_unpacked] at h
  change (unpacked x).isNaN = false ∧ (unpacked y).isNaN = false
  cases hx : unpacked x <;> cases hy : unpacked y <;> rw [hx, hy] at h
  case notANumber.notANumber | notANumber.infinity | notANumber.zero | notANumber.finite |
    infinity.notANumber | zero.notANumber | finite.notANumber => cases h
  all_goals exact ⟨rfl, rfl⟩

/-- **What lies between finite numbers is finite.** -/
theorem finite_of_between {a b : Float} (ha : a.isFinite = true) (hb : b.isFinite = true)
    (hax : a ≤ x) (hxb : x ≤ b) : x.isFinite = true := by
  by_contra hx
  obtain ⟨s, hs⟩ := infinite_of_not_finite hx (defined_of_le hxb).1
  rw [le_iff_unpacked, hs] at hax hxb
  cases s with
  | positive =>
    obtain ⟨t, ht⟩ | ⟨t, n, k, hn, ht⟩ := unpacked_cases hb <;> rw [ht] at hxb <;> cases hxb
  | negative =>
    obtain ⟨t, ht⟩ | ⟨t, n, k, hn, ht⟩ := unpacked_cases ha <;> rw [ht] at hax <;> cases t <;>
      cases hax

/-- So a finite number times a factor between zero and one is finite. -/
theorem isFinite_mul_of_le_one {s : Float} (hx : x.isFinite = true) (hs : s.isFinite = true)
    (h0 : 0 ≤ toRat s) (h1 : toRat s ≤ 1) : (x * s).isFinite = true := by
  have hround := roundsTo_mul hx hs
  rcases le_total 0 (toRat x) with hsign | hsign
  · refine finite_of_between (a := 0.0) rfl hx ((roundsTo_self rfl).le hround ?_)
      (hround.le (roundsTo_self hx) ?_)
    · exact mul_nonneg hsign h0
    · exact mul_le_of_le_one_right hsign h1
  · refine finite_of_between (b := 0.0) hx rfl ((roundsTo_self hx).le hround ?_)
      (hround.le (roundsTo_self rfl) ?_)
    · exact le_mul_of_le_one_right hsign h1
    · exact mul_nonpos_of_nonpos_of_nonneg hsign h0

/-! ## 2. Differences -/

/-- Beside an infinite operand the difference of forms in order is minus infinity or undefined. -/
theorem sub_of_le {u w : UnpackedFloat} (h : u.le w = true)
    (hfinite : ¬(u.isFinite = true ∧ w.isFinite = true)) :
    UnpackedFloat.sub .binary64 u w = .infinity .negative ∨
      UnpackedFloat.sub .binary64 u w = .notANumber := by
  cases u <;> cases w
  case zero.zero | zero.finite | finite.zero | finite.finite => exact absurd ⟨rfl, rfl⟩ hfinite
  case infinity.infinity s t =>
    cases s <;> cases t
    · exact Or.inr rfl
    · exact Or.inl rfl
    · cases h
    · exact Or.inr rfl
  case infinity.zero s _ | infinity.finite s _ _ _ _ =>
    cases s
    · exact Or.inl rfl
    · cases h
  case zero.infinity _ t | finite.infinity _ _ _ _ t =>
    cases t
    · cases h
    · exact Or.inl rfl
  all_goals exact Or.inr rfl

/-- **A difference of numbers in order does not read as positive**, unless it is undefined. -/
theorem sub_le_zero (h : x ≤ y) (hdefined : (x - y).isNaN = false) : x - y ≤ 0.0 := by
  by_cases hfinite : x.isFinite = true ∧ y.isFinite = true
  · obtain ⟨hx, hy⟩ := hfinite
    rw [le_iff_toRat hx hy] at h
    exact (roundsTo_sub hx hy).le (roundsTo_self rfl) (by rw [toRat_zero]; linarith)
  · rw [le_iff_unpacked] at h ⊢
    change (unpacked (x - y)).isNaN = false at hdefined
    rw [unpacked_sub] at hdefined ⊢
    rcases sub_of_le h hfinite with hsub | hsub
    · rw [hsub]
      rfl
    · rw [hsub] at hdefined
      cases hdefined

/-- A difference from a finite number is undefined only with an undefined operand. -/
theorem sub_defined (hx : x.isFinite = true) (hy : y.isNaN = false) : (x - y).isNaN = false := by
  by_cases hfinite : y.isFinite = true
  · exact (roundsTo_sub hx hfinite).isNaN
  · obtain ⟨t, ht⟩ := infinite_of_not_finite hfinite hy
    change (unpacked (x - y)).isNaN = false
    rw [unpacked_sub, ht]
    obtain ⟨s, hs⟩ | ⟨s, m, e, hm, hs⟩ := unpacked_cases hx <;> rw [hs] <;> rfl

/-! ## 3. Zeros and undefined numbers -/

/-- The number is a zero, of either sign. -/
def IsZero (x : Float) : Prop := ∃ s, unpacked x = .zero s

theorem isZero_zero : IsZero 0.0 := ⟨.positive, rfl⟩

theorem IsZero.isFinite (hx : IsZero x) : x.isFinite = true := by
  obtain ⟨s, hs⟩ := hx
  change (unpacked x).isFinite = true
  rw [hs]
  rfl

/-- A finite number is a zero exactly if its exact value is. -/
theorem isZero_iff_toRat (hx : x.isFinite = true) : IsZero x ↔ toRat x = 0 := by
  obtain ⟨s, hs⟩ | ⟨s, m, e, hm, hs⟩ := unpacked_cases hx
  · exact iff_of_true ⟨s, hs⟩ (by rw [toRat, hs, exactValue_zero])
  · refine iff_of_false ?_ ?_
    · rintro ⟨t, ht⟩
      rw [hs] at ht
      cases ht
    · have hpos : (0 : ℚ) < m * 2 ^ e := by positivity
      rw [toRat, hs, exactValue]
      cases s
      · exact neg_ne_zero.mpr hpos.ne'
      · exact hpos.ne'

theorem IsZero.toRat_eq (hx : IsZero x) : toRat x = 0 := (isZero_iff_toRat hx.isFinite).mp hx

/-- The zeros are the numbers that equal zero. -/
theorem isZero_iff_beq : IsZero x ↔ (x == 0.0) = true := by
  have hbeq : (x == 0.0) = (unpacked x).beq (.zero .positive) := rfl
  rw [hbeq, IsZero]
  cases unpacked x with
  | zero s => exact iff_of_true ⟨s, rfl⟩ rfl
  | notANumber => exact iff_of_false (by rintro ⟨s, ⟨⟩⟩) (by rintro ⟨⟩)
  | infinity s | finite s m e hm =>
    exact iff_of_false (by rintro ⟨t, ⟨⟩⟩) (by cases s <;> rintro ⟨⟩)

/-- The points that equal the origin are those with two zeros for coordinates. -/
theorem point_beq_origin_iff {p : Point Float} :
    (p == Point.origin) = true ↔ IsZero p.x ∧ IsZero p.y := by
  rw [isZero_iff_beq, isZero_iff_beq, ← Bool.and_eq_true]
  rfl

theorem isZero_origin :
    IsZero (Point.origin : Point Float).x ∧ IsZero (Point.origin : Point Float).y :=
  ⟨isZero_zero, isZero_zero⟩

theorem IsZero.neg (hx : IsZero x) : IsZero (-x) := by
  obtain ⟨s, hs⟩ := hx
  exact ⟨-s, by rw [unpacked_neg, hs]; rfl⟩

theorem IsZero.add (hx : IsZero x) (hy : IsZero y) : IsZero (x + y) := by
  obtain ⟨s, hs⟩ := hx
  obtain ⟨t, ht⟩ := hy
  rw [IsZero, unpacked_add, hs, ht]
  cases s <;> cases t <;> exact ⟨_, rfl⟩

theorem IsZero.abs (hx : IsZero x) : IsZero x.abs := by
  obtain ⟨s, hs⟩ := hx
  exact ⟨.positive, by rw [unpacked_abs, hs]; rfl⟩

theorem IsZero.le_zero (hx : IsZero x) : x ≤ 0.0 := by
  rw [le_iff_toRat hx.isFinite rfl, hx.toRat_eq, toRat_zero]

/-- Adding zero changes nothing but the sign of a zero. -/
theorem unpacked_add_zero (hx : x.isFinite = true) (hne : ¬IsZero x) :
    unpacked (x + 0.0) = unpacked x := by
  obtain ⟨s, hs⟩ | ⟨s, m, e, hm, hs⟩ := unpacked_cases hx
  · exact absurd ⟨s, hs⟩ hne
  · have hsame : unpacked (x + 0.0) = saturated (unpacked x) := by
      rw [unpacked_add, hs]
      rfl
    rw [hsame, saturated_unpacked]

/-- A difference of finite numbers with the same exact value is a zero. -/
theorem isZero_sub (hx : x.isFinite = true) (hy : y.isFinite = true) (h : toRat x = toRat y) :
    IsZero (x - y) := by
  have hround := roundsTo_sub hx hy
  rw [sub_eq_zero.mpr h] at hround
  have hlow : 0.0 ≤ x - y := (roundsTo_self rfl).le hround le_rfl
  have hhigh : x - y ≤ 0.0 := hround.le (roundsTo_self rfl) le_rfl
  have hfinite : (x - y).isFinite = true := finite_of_between rfl rfl hlow hhigh
  rw [isZero_iff_toRat hfinite, hround.toRat_eq hfinite, rounded_zero]

/-- A product with a zero is a zero if the other factor is finite. -/
theorem isZero_mul (hx : x.isFinite = true) (hy : IsZero y) : IsZero (x * y) := by
  obtain ⟨t, ht⟩ := hy
  rw [IsZero, unpacked_mul, ht]
  obtain ⟨s, hs⟩ | ⟨s, m, e, hm, hs⟩ := unpacked_cases hx <;> rw [hs] <;> exact ⟨_, rfl⟩

theorem IsZero.mul (hx : IsZero x) (hy : y.isFinite = true) : IsZero (x * y) := by
  obtain ⟨s, hs⟩ := hx
  rw [IsZero, unpacked_mul, hs]
  obtain ⟨t, ht⟩ | ⟨t, m, e, hm, ht⟩ := unpacked_cases hy <;> rw [ht] <;> exact ⟨_, rfl⟩

/-- If the other factor is not finite, the product is undefined. -/
theorem mul_zero_undefined (hx : x.isFinite ≠ true) (hy : IsZero y) :
    unpacked (x * y) = .notANumber := by
  obtain ⟨t, ht⟩ := hy
  rw [unpacked_mul, ht]
  change (unpacked x).isFinite ≠ true at hx
  cases hu : unpacked x <;> rw [hu] at hx
  case zero | finite => exact absurd rfl hx
  all_goals rfl

/-- An undefined operand makes a result undefined. -/
theorem add_undefined (h : unpacked x = .notANumber ∨ unpacked y = .notANumber) :
    unpacked (x + y) = .notANumber := by
  rw [unpacked_add]
  rcases h with h | h <;> rw [h]
  · rfl
  · cases unpacked x <;> rfl

theorem mul_undefined (h : unpacked x = .notANumber ∨ unpacked y = .notANumber) :
    unpacked (x * y) = .notANumber := by
  rw [unpacked_mul]
  rcases h with h | h <;> rw [h]
  · rfl
  · cases unpacked x <;> rfl

theorem neg_undefined (h : unpacked x = .notANumber) : unpacked (-x) = .notANumber := by
  rw [unpacked_neg, h]
  rfl

/-- A combination of zeros is a zero if the coefficients are finite. -/
theorem isZero_combination {a b : Float} (ha : a.isFinite = true) (hb : b.isFinite = true)
    (hx : IsZero x) (hy : IsZero y) : IsZero (a * x + b * y) :=
  (isZero_mul ha hx).add (isZero_mul hb hy)

/-- Else it is undefined. -/
theorem combination_undefined {a b : Float} (h : ¬(a.isFinite = true ∧ b.isFinite = true))
    (hx : IsZero x) (hy : IsZero y) : unpacked (a * x + b * y) = .notANumber := by
  by_cases ha : a.isFinite = true
  · exact add_undefined (Or.inr (mul_zero_undefined (fun hb => h ⟨ha, hb⟩) hy))
  · exact add_undefined (Or.inl (mul_zero_undefined ha hx))

/-- Multiplying twice by one number leads out of range but not to an undefined result: where the
first product is infinite, the number is not zero. -/
theorem mul_mul_self_defined (hx : x.isFinite = true) (hy : y.isFinite = true) :
    (x * y * y).isNaN = false := by
  by_cases hfinite : (x * y).isFinite = true
  · exact (roundsTo_mul hfinite hy).isNaN
  · obtain ⟨s, hs⟩ := infinite_of_not_finite hfinite (roundsTo_mul hx hy).isNaN
    change (unpacked (x * y * y)).isNaN = false
    rw [unpacked_mul, hs]
    obtain ⟨t, ht⟩ | ⟨t, n, k, hn, ht⟩ := unpacked_cases hy
    · rw [unpacked_mul, ht] at hs
      obtain ⟨r, hr⟩ | ⟨r, m, e, hm, hr⟩ := unpacked_cases hx <;> rw [hr] at hs <;> cases hs
    · rw [ht]
      rfl

/-! ## 4. Numbers that are not negative -/

/-- A number that is not negative has an exact value that is not, or is infinite. -/
theorem nonneg_cases (hx : 0.0 ≤ x) :
    x.isFinite = true ∧ 0 ≤ toRat x ∨ unpacked x = .infinity .positive := by
  by_cases hfinite : x.isFinite = true
  · rw [le_iff_toRat rfl hfinite, toRat_zero] at hx
    exact Or.inl ⟨hfinite, hx⟩
  · obtain ⟨s, hs⟩ := infinite_of_not_finite hfinite (defined_of_le hx).2
    rw [le_iff_unpacked, hs] at hx
    cases s with
    | positive => exact Or.inr hs
    | negative => cases hx

/-- It is finite if something is greater. -/
theorem finite_of_nonneg_of_lt (hx : 0.0 ≤ x) (h : x < y) : x.isFinite = true := by
  rcases nonneg_cases hx with hx | hx
  · exact hx.1
  · rw [lt_iff_unpacked, hx] at h
    cases hy : unpacked y with
    | infinity s => rw [hy] at h; cases s <;> cases h
    | _ => rw [hy] at h; cases h

/-- If it is not finite, every finite number is less. -/
theorem lt_of_not_finite (hy : 0.0 ≤ y) (hinfinite : y.isFinite ≠ true) (hx : x.isFinite = true) :
    x < y := by
  have hy := (nonneg_cases hy).resolve_left fun h => hinfinite h.1
  rw [lt_iff_unpacked, hy]
  obtain ⟨s, hs⟩ | ⟨s, m, e, hm, hs⟩ := unpacked_cases hx <;> rw [hs] <;> cases s <;> rfl

/-- What rounds an exact value that is not negative is not. -/
theorem RoundsTo.zero_le {v : ℚ} (h : RoundsTo x v) (hv : 0 ≤ v) : 0.0 ≤ x :=
  (roundsTo_self rfl).le h hv

/-- Half of a number that is not negative is not, even of an infinite one. -/
theorem zero_le_half_mul (hx : 0.0 ≤ x) : 0.0 ≤ 0.5 * x := by
  rcases nonneg_cases hx with ⟨fx, hx⟩ | hx
  · exact (roundsTo_mul rfl fx).zero_le (mul_nonneg (by decide +kernel) hx)
  · rw [le_iff_unpacked, unpacked_mul, hx]
    rfl

/-- A number that is not negative, times a negative one, does not read as positive. -/
theorem mul_le_zero (hx : 0.0 ≤ x) (hy : y.isFinite = true) (hneg : toRat y < 0) :
    x * y ≤ 0.0 := by
  rcases nonneg_cases hx with ⟨fx, hx⟩ | hx
  · exact (roundsTo_mul fx hy).le (roundsTo_self rfl) (mul_nonpos_of_nonneg_of_nonpos hx hneg.le)
  · rw [le_iff_unpacked, unpacked_mul, hx]
    obtain ⟨t, ht⟩ | ⟨t, n, k, hn, ht⟩ := unpacked_cases hy
    · rw [toRat, ht, exactValue_zero] at hneg
      exact absurd hneg (lt_irrefl 0)
    · rw [ht]
      cases t
      · rfl
      · rw [toRat, ht] at hneg
        exact absurd hneg (not_lt.mpr (by positivity : (0 : ℚ) ≤ n * 2 ^ k))

/-- A number that is not positive, less one that is not negative, does not read as positive. -/
theorem sub_le_zero_of_signs (hx : x ≤ 0.0) (hy : 0.0 ≤ y) : x - y ≤ 0.0 := by
  by_cases hfinite : x.isFinite = true
  · rcases nonneg_cases hy with ⟨fy, hy⟩ | hy
    · rw [le_iff_toRat hfinite rfl, toRat_zero] at hx
      exact (roundsTo_sub hfinite fy).le (roundsTo_self rfl) (by rw [toRat_zero]; linarith)
    · rw [le_iff_unpacked, unpacked_sub, hy]
      obtain ⟨s, hs⟩ | ⟨s, m, e, hm, hs⟩ := unpacked_cases hfinite <;> rw [hs] <;> rfl
  · obtain ⟨s, hs⟩ := infinite_of_not_finite hfinite (defined_of_le hx).1
    rw [le_iff_unpacked, hs] at hx
    cases s with
    | positive => cases hx
    | negative =>
      rw [le_iff_unpacked, unpacked_sub, hs]
      rcases nonneg_cases hy with ⟨fy, -⟩ | hy
      · obtain ⟨t, ht⟩ | ⟨t, n, k, hn, ht⟩ := unpacked_cases fy <;> rw [ht] <;> rfl
      · rw [hy]
        rfl

/-- A square is not negative. -/
theorem zero_le_mul_self (hx : x.isNaN = false) : 0.0 ≤ x * x := by
  by_cases hfinite : x.isFinite = true
  · exact (roundsTo_self rfl).le (roundsTo_mul hfinite hfinite) (mul_self_nonneg _)
  · obtain ⟨s, hs⟩ := infinite_of_not_finite hfinite hx
    rw [le_iff_unpacked, unpacked_mul, hs]
    cases s <;> rfl

/-- Neither is a product of finite numbers that are not, -/
theorem zero_le_mul (hx : 0.0 ≤ x) (hy : 0.0 ≤ y) (fx : x.isFinite = true)
    (fy : y.isFinite = true) : 0.0 ≤ x * y := by
  rw [le_iff_toRat rfl fx, toRat_zero] at hx
  rw [le_iff_toRat rfl fy, toRat_zero] at hy
  exact (roundsTo_self rfl).le (roundsTo_mul fx fy) (mul_nonneg hx hy)

/-- or a difference of finite numbers in order, -/
theorem zero_le_sub (h : x ≤ y) (fx : x.isFinite = true) (fy : y.isFinite = true) :
    0.0 ≤ y - x := by
  rw [le_iff_toRat fx fy] at h
  exact (roundsTo_self rfl).le (roundsTo_sub fy fx) (by rw [toRat_zero]; linarith)

/-- or a sum of numbers that are not. -/
theorem zero_le_add (hx : 0.0 ≤ x) (hy : 0.0 ≤ y) : 0.0 ≤ x + y := by
  rcases nonneg_cases hx with ⟨fx, hx⟩ | hx
  · rcases nonneg_cases hy with ⟨fy, hy⟩ | hy
    · exact (roundsTo_self rfl).le (roundsTo_add fx fy) (add_nonneg hx hy)
    · rw [le_iff_unpacked, unpacked_add, hy]
      obtain ⟨s, hs⟩ | ⟨s, m, e, hm, hs⟩ := unpacked_cases fx <;> rw [hs] <;> rfl
  · rw [le_iff_unpacked, unpacked_add, hx]
    rcases nonneg_cases hy with ⟨fy, -⟩ | hy
    · obtain ⟨s, hs⟩ | ⟨s, m, e, hm, hs⟩ := unpacked_cases fy <;> rw [hs] <;> rfl
    · rw [hy]
      rfl

/-! ## 5. The hypotenuse -/

theorem unpacked_hypotenuse (x y : Float) :
    unpacked (hypotenuse x y) = unpack .binary64
      (UnpackedFloat.pack .binary64 (unpackedHypotenuse (unpacked x) (unpacked y))) := rfl

/-- Beside an infinite or undefined leg the hypotenuse is infinite or undefined. -/
theorem unpacked_hypotenuse_of_not_finite (h : ¬(x.isFinite = true ∧ y.isFinite = true)) :
    unpacked (hypotenuse x y) = .infinity .positive ∨
      unpacked (hypotenuse x y) = .notANumber := by
  have hform : unpackedHypotenuse (unpacked x) (unpacked y) = .infinity .positive ∨
      unpackedHypotenuse (unpacked x) (unpacked y) = .notANumber := by
    change ¬((unpacked x).isFinite = true ∧ (unpacked y).isFinite = true) at h
    cases hx : unpacked x <;> cases hy : unpacked y <;> rw [hx, hy] at h
    case zero.zero | zero.finite | finite.zero | finite.finite => exact absurd ⟨rfl, rfl⟩ h
    case notANumber.notANumber | notANumber.zero | notANumber.finite | zero.notANumber |
      finite.notANumber => exact Or.inr rfl
    all_goals exact Or.inl rfl
  rw [unpacked_hypotenuse]
  rcases hform with hform | hform <;> rw [hform]
  · exact Or.inl (unpack_pack (u := .infinity .positive) trivial)
  · exact Or.inr rfl

/-- Then it does not read as at most a finite number. -/
theorem not_hypotenuse_le {t : Float} (h : ¬(x.isFinite = true ∧ y.isFinite = true))
    (ht : t.isFinite = true) : ¬hypotenuse x y ≤ t := by
  rw [le_iff_unpacked]
  rcases unpacked_hypotenuse_of_not_finite h with hform | hform <;> rw [hform]
  · obtain ⟨s, hs⟩ | ⟨s, m, e, hm, hs⟩ := unpacked_cases ht <;> rw [hs] <;> rintro ⟨⟩
  · rintro ⟨⟩

/-- The hypotenuse beside two zeros. -/
theorem hypotenuse_zeros (hx : IsZero x) (hy : IsZero y) :
    unpacked (hypotenuse x y) = .zero .positive := by
  obtain ⟨s, hs⟩ := hx
  obtain ⟨t, ht⟩ := hy
  rw [unpacked_hypotenuse, hs, ht]
  exact unpack_pack (u := .zero .positive) trivial

/-- The hypotenuse beside an undefined leg is undefined, unless the other one is infinite. -/
theorem hypotenuse_undefined (h : unpacked x = .notANumber ∨ unpacked y = .notANumber)
    (hx : ∀ s, unpacked x ≠ .infinity s) (hy : ∀ s, unpacked y ≠ .infinity s) :
    unpacked (hypotenuse x y) = .notANumber := by
  have hform : unpackedHypotenuse (unpacked x) (unpacked y) = .notANumber := by
    rcases h with h | h
    · rw [h]
      cases hu : unpacked y with
      | infinity s => exact absurd hu (hy s)
      | _ => rfl
    · rw [h]
      cases hu : unpacked x with
      | infinity s => exact absurd hu (hx s)
      | _ => rfl
  rw [unpacked_hypotenuse, hform]
  rfl

/-- The hypotenuse beside two finite legs may be infinite but is not undefined. -/
theorem hypotenuse_defined (hx : x.isFinite = true) (hy : y.isFinite = true) :
    (hypotenuse x y).isNaN = false := by
  have hform : (unpackedHypotenuse (unpacked x) (unpacked y)).isFinite = true := by
    obtain ⟨s, hs⟩ | ⟨s, m, e, hm, hs⟩ := unpacked_cases hx <;>
      obtain ⟨t, ht⟩ | ⟨t, n, k, hn, ht⟩ := unpacked_cases hy <;> rw [hs, ht]
    · rfl
    · rfl
    · rfl
    · exact isFinite_roundWithAccuracy _ _ _ _
  have hne : unpacked (hypotenuse x y) ≠ .notANumber := by
    rw [unpacked_hypotenuse]
    refine unpack_pack_ne_notANumber fun h => ?_
    rw [h] at hform
    cases hform
  change (unpacked (hypotenuse x y)).isNaN = false
  cases hu : unpacked (hypotenuse x y) with
  | notANumber => exact absurd hu hne
  | _ => rfl

end Downhill.Binary64

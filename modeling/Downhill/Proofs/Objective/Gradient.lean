import Downhill.Objective.Quadratic
import Downhill.Proofs.Binary64.Limits

/-! # Slopes and steps where numbers end

A step with a zero vector from the origin stays there, and a step with an undefined one leads to an
undefined point; a matrix takes a zero vector to a zero vector exactly if its entries are finite.

The convergence test compares the length of the gradient to a finite threshold.

* At a point that is not finite the test is never met (`not_slope_le`): every product with such a
  coordinate is infinite or undefined, every sum with such a product as well, and a length beside
  such a component is never below a finite number.
* At the origin it is met by every form whose doubled coefficients `2 a` and `2 c` are finite, and
  by no other form (`slope_origin_le_iff`): the gradient there is zero, or zero times an infinite
  coefficient, which is undefined.  The signs of the zeros do not matter.
-/

namespace Downhill

open Binary64

/-! ## 1. Steps -/

section Steps

variable {p : Point Float} {v : Vec Float} {size : Float}

theorem isZero_step (hp : IsZero p.x ∧ IsZero p.y) (hv : IsZero v.x ∧ IsZero v.y)
    (hsize : size.isFinite = true) : IsZero (p.step (-v) size).x ∧ IsZero (p.step (-v) size).y :=
  ⟨hp.1.add (hv.1.neg.mul hsize), hp.2.add (hv.2.neg.mul hsize)⟩

theorem step_undefined (h : unpacked v.x = .notANumber ∨ unpacked v.y = .notANumber) :
    unpacked (p.step (-v) size).x = .notANumber ∨
      unpacked (p.step (-v) size).y = .notANumber :=
  h.imp (fun hx => add_undefined (Or.inr (mul_undefined (Or.inl (neg_undefined hx)))))
    fun hy => add_undefined (Or.inr (mul_undefined (Or.inl (neg_undefined hy))))

/-- A point with an undefined coordinate is not finite. -/
theorem not_finite_of_undefined (h : unpacked p.x = .notANumber ∨ unpacked p.y = .notANumber) :
    p.isFinite = false := by
  refine Bool.eq_false_iff.mpr fun hp => ?_
  obtain ⟨hx, hy⟩ := point_isFinite_iff.mp hp
  change (unpacked p.x).isFinite = true at hx
  change (unpacked p.y).isFinite = true at hy
  rcases h with h | h
  · rw [h] at hx
    cases hx
  · rw [h] at hy
    cases hy

end Steps

namespace Mat

/-- All entries are finite. -/
def IsFinite (m : Mat Float) : Prop :=
  (m.a.isFinite = true ∧ m.b.isFinite = true) ∧ m.c.isFinite = true ∧ m.d.isFinite = true

instance (m : Mat Float) : Decidable m.IsFinite := inferInstanceAs (Decidable (_ ∧ _))

variable {m : Mat Float} {v : Vec Float}

theorem isZero_mulVec (hm : m.IsFinite) (hv : IsZero v.x ∧ IsZero v.y) :
    IsZero (m.mulVec v).x ∧ IsZero (m.mulVec v).y :=
  ⟨isZero_combination hm.1.1 hm.1.2 hv.1 hv.2, isZero_combination hm.2.1 hm.2.2 hv.1 hv.2⟩

theorem mulVec_undefined (hm : ¬m.IsFinite) (hv : IsZero v.x ∧ IsZero v.y) :
    unpacked (m.mulVec v).x = .notANumber ∨ unpacked (m.mulVec v).y = .notANumber := by
  by_cases hrow : m.a.isFinite = true ∧ m.b.isFinite = true
  · exact Or.inr (combination_undefined (fun h => hm ⟨hrow, h⟩) hv.1 hv.2)
  · exact Or.inl (combination_undefined hrow hv.1 hv.2)

end Mat

/-! ## 2. Slopes -/

namespace QuadraticForm

variable (q : QuadraticForm Float) {t : Float} {p : Point Float}

/-- A gradient with two finite components belongs to a finite point. -/
theorem finite_of_gradient
    (h : (q.objective.gradient p).x.isFinite = true ∧ (q.objective.gradient p).y.isFinite = true) :
    p.isFinite = true := by
  obtain ⟨hx, hy⟩ := h
  have hpx : p.x.isFinite = true := (finite_of_mul (finite_of_add hx).1).2
  have hpy : p.y.isFinite = true := (finite_of_mul (finite_of_add hy).2).2
  simp [Point.isFinite, hpx, hpy]

/-- **At a point that is not finite the slope does not read as at most a finite number.** -/
theorem not_slope_le (hp : p.isFinite = false) (ht : t.isFinite = true) :
    ¬q.objective.slope p ≤ t := by
  refine not_hypotenuse_le (fun h => ?_) ht
  rw [finite_of_gradient q h] at hp
  cases hp

theorem finite_a : q.a.isFinite = true := (finiteCoefficients_iff.mp q.accepted.1).1

theorem finite_b : q.b.isFinite = true := (finiteCoefficients_iff.mp q.accepted.1).2.1

theorem finite_c : q.c.isFinite = true := (finiteCoefficients_iff.mp q.accepted.1).2.2

/-- The value at the origin is a zero. -/
theorem evaluate_origin (hp : IsZero p.x ∧ IsZero p.y) : IsZero (q.objective.evaluate p) :=
  ((isZero_mul (isZero_mul q.finite_a hp.1).isFinite hp.1).add
    (isZero_mul (isZero_mul q.finite_b hp.1).isFinite hp.2)).add
      (isZero_mul (isZero_mul q.finite_c hp.2).isFinite hp.2)

/-- With finite doubled coefficients the gradient at the origin is zero. -/
theorem gradient_origin (ha : (2.0 * q.a).isFinite = true) (hc : (2.0 * q.c).isFinite = true)
    (hx : IsZero p.x) (hy : IsZero p.y) :
    IsZero (q.objective.gradient p).x ∧ IsZero (q.objective.gradient p).y :=
  ⟨isZero_combination ha q.finite_b hx hy, isZero_combination q.finite_b hc hx hy⟩

/-- With an infinite one a component of it is undefined. -/
theorem gradient_origin_undefined
    (h : ¬((2.0 * q.a).isFinite = true ∧ (2.0 * q.c).isFinite = true))
    (hx : IsZero p.x) (hy : IsZero p.y) :
    unpacked (q.objective.gradient p).x = .notANumber ∨
      unpacked (q.objective.gradient p).y = .notANumber := by
  by_cases ha : (2.0 * q.a).isFinite = true
  · exact Or.inr (combination_undefined (fun hbc => h ⟨ha, hbc.2⟩) hx hy)
  · exact Or.inl (combination_undefined (fun hab => ha hab.1) hx hy)

/-- Then the slope is zero, -/
theorem slope_origin (ha : (2.0 * q.a).isFinite = true) (hc : (2.0 * q.c).isFinite = true)
    (hx : IsZero p.x) (hy : IsZero p.y) :
    unpacked (q.objective.slope p) = .zero .positive :=
  have h := q.gradient_origin ha hc hx hy
  hypotenuse_zeros h.1 h.2

/-- or undefined: each component of the gradient is a zero or undefined, and one of them is
undefined. -/
theorem slope_origin_undefined
    (h : ¬((2.0 * q.a).isFinite = true ∧ (2.0 * q.c).isFinite = true))
    (hx : IsZero p.x) (hy : IsZero p.y) :
    unpacked (q.objective.slope p) = .notANumber := by
  have hnot {a b : Float} (s) : unpacked (a * p.x + b * p.y) ≠ .infinity s := by
    by_cases hfinite : a.isFinite = true ∧ b.isFinite = true
    · obtain ⟨t, ht⟩ := isZero_combination hfinite.1 hfinite.2 hx hy
      rw [ht]
      rintro ⟨⟩
    · rw [combination_undefined hfinite hx hy]
      rintro ⟨⟩
  exact hypotenuse_undefined (q.gradient_origin_undefined h hx hy) hnot hnot

/-- **At the origin the slope reads as at most a positive number if the doubled coefficients are
finite**, and only then. -/
theorem slope_origin_le_iff (hpos : 0.0 < t) (hx : IsZero p.x)
    (hy : IsZero p.y) :
    q.objective.slope p ≤ t ↔ (2.0 * q.a).isFinite = true ∧ (2.0 * q.c).isFinite = true := by
  rw [le_iff_unpacked]
  by_cases h : (2.0 * q.a).isFinite = true ∧ (2.0 * q.c).isFinite = true
  · rw [q.slope_origin h.1 h.2 hx hy]
    exact iff_of_true (le_iff_unpacked.mp (le_of_lt hpos)) h
  · rw [q.slope_origin_undefined h hx hy]
    exact iff_of_false (by rintro ⟨⟩) h

/-- At a point with an undefined coordinate the slope is undefined. -/
theorem slope_undefined
    (h : unpacked p.x = .notANumber ∨ unpacked p.y = .notANumber) :
    unpacked (q.objective.slope p) = .notANumber := by
  have hcomponent {a b : Float} : unpacked (a * p.x + b * p.y) = .notANumber :=
    add_undefined (h.imp (fun hx => mul_undefined (Or.inr hx)) fun hy => mul_undefined (Or.inr hy))
  refine hypotenuse_undefined (Or.inl hcomponent) (fun s hs => ?_) fun s hs => ?_
  · cases hcomponent.symm.trans hs
  · cases hcomponent.symm.trans hs

end QuadraticForm

end Downhill

import Downhill.Proofs.Binary64.Order
import Downhill.Proofs.Constraint.FinitePoints

/-! # Projected points stay where they are

A projection onto a parabola that is finite lies on the curve with no tolerance at all, and
projecting it again gives it back (`projection_is_feasible_and_fixed`).

Neither follows from any accuracy of the search.  The curve point, the test for membership and the
squared distance all form the product `k t²` in the same way, so on a finite curve point they meet
the same number twice and the difference is a zero.  The second search starts from that height.  Its
cubic is a new one and the heights it visits are anyone's guess, but none of them has a squared
distance below zero, and only a smaller one would be taken.

Where the projection gave up on a point and took the origin, the second search runs as well.  It
takes height zero, and the curve point there is the origin up to the sign of a zero.
-/

namespace Downhill.Constraint

open Binary64

variable {k t : Float} {p q : Point Float}

/-! ## 1. Points of the curve -/

/-- The point has no distance at all from the curve point at its height: the product that the curve
is made of cancels its first coordinate. -/
def OnCurve (k : Float) (q : Point Float) : Prop :=
  q.isFinite = true ∧ IsZero (q.x - k * q.y * q.y)

theorem onCurve_onParabola (h : (onParabola k t).isFinite = true) : OnCurve k (onParabola k t) := by
  have hx : (k * t * t).isFinite = true := (point_isFinite_iff.mp h).1
  exact ⟨h, isZero_sub hx hx rfl⟩

theorem isZero_onParabola_zero (hk : k.isFinite = true) : IsZero (onParabola k 0.0).x :=
  isZero_mul (isZero_mul hk isZero_zero).isFinite isZero_zero

theorem onCurve_origin (hk : k.isFinite = true) : OnCurve k .origin := by
  have hcurve : IsZero (k * 0.0 * 0.0) := isZero_onParabola_zero hk
  have hsame : toRat 0.0 = toRat (k * 0.0 * 0.0) := by rw [hcurve.toRat_eq, toRat_zero]
  exact ⟨by decide, isZero_sub rfl hcurve.isFinite hsame⟩

/-- Points of the curve are feasible without any tolerance. -/
theorem OnCurve.contains (h : OnCurve k q) : (parabola k).contains q 0.0 = true := by
  have habs : (q.x - k * q.y * q.y).abs ≤ 0.0 := h.2.abs.le_zero
  exact decide_eq_true habs

/-! ## 2. Projecting a point of the curve -/

/-- A first height whose value no other one undercuts is kept. -/
theorem firstLeast_of_not_lt {f : Float → Float} {best : Float} {ts : List Float}
    (h : ∀ u ∈ ts, ¬f u < f best) : firstLeast f best ts = best := by
  induction ts with
  | nil => rfl
  | cons t ts ih =>
    obtain ⟨ht, hts⟩ := List.forall_mem_cons.mp h
    rw [firstLeast_cons_of_not_lt ts ht, ih hts]

theorem OnCurve.isZero_squaredDistance (h : OnCurve k q) : IsZero (squaredDistance k q q.y) := by
  have hy : q.y.isFinite = true := (point_isFinite_iff.mp h.1).2
  have hdy : IsZero (q.y - q.y) := isZero_sub hy hy rfl
  exact isZero_combination h.2.isFinite hdy.isFinite h.2 hdy

/-- **The height of a point of the curve is the one that is taken.** -/
theorem OnCurve.parabolaHeight_eq (hk : k.isFinite = true) (h : OnCurve k q) :
    parabolaHeight k q = q.y := by
  refine firstLeast_of_not_lt fun u hu => ?_
  have hnonneg : 0.0 ≤ squaredDistance k q u :=
    zero_le_squaredDistance hk h.1 (isFinite_of_mem_newton hu)
  have hle : squaredDistance k q q.y ≤ squaredDistance k q u :=
    le_le_trans h.isZero_squaredDistance.le_zero hnonneg
  obtain ⟨hseed, hother⟩ := defined_of_le hle
  exact (not_lt_iff_le hother hseed).mpr hle

theorem OnCurve.project_eq (hk : k.isFinite = true) (h : OnCurve k q) :
    (parabola k).project q = onParabola k q.y := by
  rw [project_of_finite h.1]
  exact congrArg (onParabola k) (h.parabolaHeight_eq hk)

/-- **A finite projection onto a parabola is feasible without tolerance, and projecting it again
changes nothing.**

For every finite curvature and every point, finite or not: if the projection is finite then it is
contained in the parabola with tolerance zero, and its own projection equals it.  The projection of
a finite point is even given back digit by digit; that of any other point is the origin, of which
a zero may change its sign. -/
theorem projection_is_feasible_and_fixed (hk : k.isFinite = true) (p : Point Float)
    (hq : ((parabola k).project p).isFinite = true) :
    let q := (parabola k).project p
    (parabola k).contains q 0.0 = true ∧ ((parabola k).project q == q) = true ∧
      (p.isFinite = true → (parabola k).project q = q) := by
  intro q
  by_cases hp : p.isFinite = true
  · have hcurve : q = onParabola k (parabolaHeight k p) := project_of_finite hp
    have hon : OnCurve k q := by
      rw [hcurve]
      exact onCurve_onParabola (hcurve ▸ hq)
    have hagain : (parabola k).project q = q := by
      rw [hon.project_eq hk, hcurve]
      rfl
    obtain ⟨hx, hy⟩ := point_isFinite_iff.mp hq
    refine ⟨hon.contains, ?_, fun _ => hagain⟩
    rw [hagain]
    exact Bool.and_eq_true_iff.mpr ⟨beq_self_of_defined (defined_of_finite hx),
      beq_self_of_defined (defined_of_finite hy)⟩
  · have horigin : q = .origin := by simp [q, project, givesUpOn, hp]
    have hon : OnCurve k q := horigin ▸ onCurve_origin hk
    refine ⟨hon.contains, ?_, fun h => absurd h hp⟩
    rw [hon.project_eq hk, horigin]
    exact point_beq_origin_iff.mpr ⟨isZero_onParabola_zero hk, isZero_zero⟩

/-- A point beside the curve `x = -2 y²`, and one that is not finite: the projection of the first is
another point, that of the second is the origin. -/
theorem fixed_beside_and_at_infinity :
    (let q := (parabola (-2.0)).project (⟨5.0, 3.0⟩ : Point Float)
    q.isFinite = true ∧ q.y < 3.0 ∧ (parabola (-2.0)).contains q 0.0 = true ∧
      (parabola (-2.0)).project q = q) ∧
    (let q := (parabola (-2.0)).project (⟨5.0, 1.0 / 0.0⟩ : Point Float)
    q = .origin ∧ (parabola (-2.0)).contains q 0.0 = true ∧
      ((parabola (-2.0)).project q == q) = true) := by
  have hk : (-2.0 : Float).isFinite = true := by decide +kernel
  have hfinite : ((parabola (-2.0)).project (⟨5.0, 3.0⟩ : Point Float)).isFinite = true := by
    decide +kernel
  have hinfinite :
      ((parabola (-2.0)).project (⟨5.0, 1.0 / 0.0⟩ : Point Float)).isFinite = true := by
    decide +kernel
  obtain ⟨hcontains, -, hfixed⟩ := projection_is_feasible_and_fixed hk ⟨5.0, 3.0⟩ hfinite
  obtain ⟨hcontains', hequal, -⟩ := projection_is_feasible_and_fixed hk ⟨5.0, 1.0 / 0.0⟩ hinfinite
  exact ⟨⟨hfinite, by decide +kernel, hcontains, hfixed (by decide +kernel)⟩,
    ⟨by decide +kernel, hcontains', hequal⟩⟩

end Downhill.Constraint

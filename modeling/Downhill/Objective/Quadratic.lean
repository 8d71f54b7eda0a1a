import Downhill.Binary64
import Downhill.Plane

/-! # Objectives and quadratic forms

An objective is what a descent minimises: a value and a gradient at each point, and one Hessian
for the whole plane.  The largest eigenvalue of the Hessian limits the steps that plain gradient
descent can take without diverging.

The form `a x² + b x y + c y²` is an objective once it has passed a test: finite coefficients, a
first coefficient that does not read as zero or less, and a discriminant `4 a c - b²` that does
not either.  The test is made with the rounded numbers themselves.  A form carries the fact that
its coefficients passed.
-/

namespace Downhill

/-! ## 1. Objectives -/

/-- A function of the plane with its gradient, the direction of steepest ascent at a point, and its
Hessian, the matrix of second derivatives, which is the same everywhere. -/
structure Objective (α : Type) where
  evaluate : Point α → α
  gradient : Point α → Vec α
  hessian : Mat α

namespace Objective

variable {α : Type} [Scalar α]

/-- The length of the gradient at a point. -/
def slope (f : Objective α) (p : Point α) : α := (f.gradient p).norm

/-- Gradient descent contracts for positive step sizes below this limit, two over the largest
curvature.  Without positive curvature there is no limit, and it is infinite. -/
def stabilityLimit (f : Objective α) : α :=
  let largest := f.hessian.eigenvalues.2
  if 0.0 < largest then 2.0 / largest else 1.0 / 0.0

/-- The objective with the same value, gradient and Hessian everywhere.  The three are given
independently: it need not be a function that has them as its derivatives. -/
def fixed (value : α) (gradient : Vec α) (hessian : Mat α) : Objective α where
  evaluate _ := value
  gradient _ := gradient
  hessian := hessian

end Objective

/-! ## 2. Quadratic forms -/

/-- Why coefficients are no quadratic form: one of them is infinite or undefined, or one of the first
coefficient and the discriminant, which are both named, is not positive. -/
inductive InvalidForm (α : Type) where
  | nonFinite
  | notPositiveDefinite (a discriminant : α)
deriving DecidableEq, Repr

namespace QuadraticForm

variable {α : Type} [Scalar α]

/-- The discriminant `4 a c - b²`. -/
def discriminant (a b c : α) : α := 4.0 * a * c - b * b

/-- All three coefficients are finite. -/
def finiteCoefficients (a b c : α) : Bool :=
  Scalar.isFinite a && Scalar.isFinite b && Scalar.isFinite c

theorem finiteCoefficients_iff {a b c : α} : finiteCoefficients a b c = true ↔
    Scalar.isFinite a = true ∧ Scalar.isFinite b = true ∧ Scalar.isFinite c = true := by
  simp only [finiteCoefficients, Bool.and_eq_true, and_assoc]

/-- The coefficients are finite, and neither `a` nor the discriminant is zero or less. -/
def Accepted (a b c : α) : Prop :=
  finiteCoefficients a b c = true ∧ ¬ a ≤ 0.0 ∧ ¬ discriminant a b c ≤ 0.0

instance (a b c : α) : Decidable (Accepted a b c) :=
  inferInstanceAs (Decidable (_ ∧ _ ∧ _))

end QuadraticForm

/-- The form `a x² + b x y + c y²` with coefficients that passed the test. -/
structure QuadraticForm (α : Type) [Scalar α] where
  a : α
  b : α
  c : α
  accepted : QuadraticForm.Accepted a b c

namespace QuadraticForm

variable {α : Type} [Scalar α]

/-- The form with the given coefficients, or the first fault found in them. -/
def ofCoefficients (a b c : α) : Except (InvalidForm α) (QuadraticForm α) :=
  if h : Accepted a b c then .ok ⟨a, b, c, h⟩
  else if finiteCoefficients a b c then
    .error (.notPositiveDefinite a (discriminant a b c))
  else .error .nonFinite

/-- The minimum of a form is at the origin. -/
def minimizer (_ : QuadraticForm α) : Point α := Point.origin

/-- The form as an objective. -/
def objective (q : QuadraticForm α) : Objective α where
  evaluate p := q.a * p.x * p.x + q.b * p.x * p.y + q.c * p.y * p.y
  gradient p := ⟨2.0 * q.a * p.x + q.b * p.y, q.b * p.x + 2.0 * q.c * p.y⟩
  hessian := .symmetric (2.0 * q.a) q.b (2.0 * q.c)

/-- The built-in form `0.01 x² + 0.02 x y + 0.04 y²`. -/
def bundled : QuadraticForm Float := ⟨0.01, 0.02, 0.04, by decide +kernel⟩

end QuadraticForm

end Downhill

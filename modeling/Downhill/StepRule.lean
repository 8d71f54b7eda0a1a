import Downhill.InvalidSetting
import Downhill.Objective.Quadratic

/-! # Step rules

A step rule proposes the next point from the current one.  It knows the objective and nothing of
constraints: keeping a proposal feasible is the business of the constraint.

* Gradient descent goes against the gradient by a fixed factor.  Any positive factor is allowed,
  also one beyond the stability limit of the objective.
* Damped Newton goes against the gradient, transformed by the inverse Hessian and shortened by a
  factor of at most one.  Where the Hessian reads as singular, it takes a plain gradient step.
-/

namespace Downhill

/-- How the next point is proposed: against the gradient, scaled by the step size, or against the
inverse Hessian applied to the gradient, scaled by the damping factor. -/
inductive StepRule (α : Type) where
  | gradientDescent (stepSize : α)
  | dampedNewton (damping : α)
deriving DecidableEq, Repr

namespace StepRule

variable {α : Type} [Scalar α]

/-- A determinant smaller than this in magnitude counts as zero. -/
def singularTolerance : α := 1e-10

/-- The step size of the gradient step taken for a singular Hessian. -/
def fallbackStepSize : α := 1.0

/-- Gradient descent with step size one. -/
def default : StepRule α := .gradientDescent 1.0

/-- The name of the rule. -/
def name : StepRule α → String
  | .gradientDescent _ => "gradient descent"
  | .dampedNewton _ => "damped Newton"

/-- Refuses a step size that is not finite and positive, and a damping factor outside
`(0, 1]`. -/
def check : StepRule α → Except (InvalidSetting α) Unit
  | .gradientDescent stepSize =>
    if Scalar.isFinite stepSize && 0.0 < stepSize then .ok () else .error (.stepSize stepSize)
  | .dampedNewton damping =>
    if 0.0 < damping && damping ≤ 1.0 then .ok () else .error (.damping damping)

/-- The inverse Hessian that a Newton step uses, if the Hessian does not read as singular. -/
def newtonInverse? (f : Objective α) : Option (Mat α) := f.hessian.inverse? singularTolerance

/-- The point a rule proposes after `p`. -/
def propose (rule : StepRule α) (f : Objective α) (p : Point α) : Point α :=
  let gradient := f.gradient p
  match rule with
  | .gradientDescent stepSize => p.step (-gradient) stepSize
  | .dampedNewton damping =>
    match newtonInverse? f with
    | some inverse => p.step (-inverse.mulVec gradient) damping
    | none => p.step (-gradient) fallbackStepSize

/-- True of a Newton rule on an objective whose Hessian reads as singular. -/
def fallsBack (rule : StepRule α) (f : Objective α) : Bool :=
  match rule with
  | .gradientDescent _ => false
  | .dampedNewton _ => (newtonInverse? f).isNone

end StepRule

end Downhill

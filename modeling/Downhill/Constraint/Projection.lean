import Downhill.InvalidSetting

/-! # Constraints and projection

A constraint is the set of points a descent may visit: the whole plane, a closed disk around the
origin, or the parabola `x = k y²`.  Projection brings a proposed point back to the feasible set and
never fails.

* Without a constraint every point stays.
* A point outside the disk is moved along its ray to the circle.
* For the parabola `x = k y²` the nearest curve point `(k t², t)` to `p` has a height `t` at which
  the cubic `4k² t³ + (2 - 4k pₓ) t - 2 p_y` vanishes.  Newton's iteration from the height of
  `p` visits at most ten further heights, and the visited height nearest to `p` is taken, the
  first one of several.  The iteration ends early where the slope of the cubic nearly vanishes
  or the next height is not finite.

A point with a coordinate that is infinite or undefined cannot be brought back along any
direction; it goes to the origin, which both the disk and the parabola contain.
-/

namespace Downhill

/-! ## 1. Constraints -/

/-- The set of feasible points: all of them, those at most `radius` from the origin, or the curve
`x = curvature · y²`. -/
inductive Constraint (α : Type) where
  | unconstrained
  | disk (radius : α)
  | parabola (curvature : α)
deriving DecidableEq, Repr

namespace Constraint

variable {α : Type} [Scalar α]

/-- No constraint at all. -/
def default : Constraint α := .unconstrained

/-- Refuses a radius that is not finite and positive, and a curvature that is not finite. -/
def check : Constraint α → Except (InvalidSetting α) Unit
  | .unconstrained => .ok ()
  | .disk radius =>
    if Scalar.isFinite radius && 0.0 < radius then .ok () else .error (.radius radius)
  | .parabola curvature =>
    if Scalar.isFinite curvature then .ok () else .error (.curvature curvature)

/-- The point of the parabola of curvature `k` at height `t`. -/
def onParabola (k t : α) : Point α := ⟨k * t * t, t⟩

/-- Feasibility up to a tolerance, which widens the disk and thickens the parabola. -/
def contains (constraint : Constraint α) (p : Point α) (tol : α) : Bool :=
  match constraint with
  | .unconstrained => true
  | .disk radius => decide (p.norm ≤ radius + tol)
  | .parabola curvature => decide (Scalar.abs (p.x - curvature * p.y * p.y) ≤ tol)

/-! ## 2. Projection onto the disk -/

/-- The point of the disk on the ray of `p`: `p` itself inside, else `p` scaled down. -/
def projectOntoDisk (radius : α) (p : Point α) : Point α :=
  let norm := p.norm
  if norm ≤ radius || norm == 0.0 then p else p.scale (radius / norm)

/-! ## 3. Projection onto the parabola -/

/-- How many heights Newton's iteration may visit after the first. -/
def newtonBudget : Nat := 10

/-- A slope of the cubic smaller than this in magnitude ends the iteration. -/
def slopeTolerance : α := 1e-10

/-- The cubic `c3 t³ + c1 t + c0`, whose roots are the stationary heights. -/
structure Cubic (α : Type) where
  c3 : α
  c1 : α
  c0 : α

/-- The cubic for the parabola of curvature `k` and the point `p`. -/
def cubic (k : α) (p : Point α) : Cubic α := ⟨4.0 * k * k, 2.0 - 4.0 * k * p.x, -2.0 * p.y⟩

/-- The slope of the cubic at `t`. -/
def Cubic.slope (g : Cubic α) (t : α) : α := 3.0 * g.c3 * t * t + g.c1

/-- The value of the cubic at `t`. -/
def Cubic.value (g : Cubic α) (t : α) : α := g.c3 * t * t * t + g.c1 * t + g.c0

/-- The heights that Newton's iteration visits after `t`. -/
def Cubic.newton (g : Cubic α) : Nat → α → List α
  | 0, _ => []
  | budget + 1, t =>
    if Scalar.abs (g.slope t) < slopeTolerance then []
    else
      let next := t - g.value t / g.slope t
      if Scalar.isFinite next then next :: g.newton budget next else []

/-- The squared distance from `p` to the curve point at height `t`. -/
def squaredDistance (k : α) (p : Point α) (t : α) : α :=
  let d := p - onParabola k t
  d.dot d

/-- The first of the heights at which `f` is smallest, starting from `best`.  A height replaces
the best one only if its value is less. -/
def firstLeast (f : α → α) (best : α) (ts : List α) : α :=
  ts.foldl (fun best t => if f t < f best then t else best) best

/-- The height of the projection of `p` onto the parabola of curvature `k`. -/
def parabolaHeight (k : α) (p : Point α) : α :=
  firstLeast (squaredDistance k p) p.y ((cubic k p).newton newtonBudget p.y)

/-- The curve point at the best visited height. -/
def projectOntoParabola (k : α) (p : Point α) : Point α := onParabola k (parabolaHeight k p)

/-! ## 4. Projection -/

/-- True where the projection has to give up on `p` and takes the origin. -/
def givesUpOn (constraint : Constraint α) (p : Point α) : Bool :=
  match constraint with
  | .unconstrained => false
  | .disk _ => !p.isFinite
  | .parabola _ => !p.isFinite

/-- The feasible point that takes the place of `p`. -/
def project (constraint : Constraint α) (p : Point α) : Point α :=
  if constraint.givesUpOn p then .origin
  else match constraint with
    | .unconstrained => p
    | .disk radius => projectOntoDisk radius p
    | .parabola curvature => projectOntoParabola curvature p

variable {constraint : Constraint α} {p : Point α}

/-- A finite point is projected by the rule of the constraint. -/
theorem project_of_finite (hp : p.isFinite = true) :
    constraint.project p = match constraint with
      | .unconstrained => p
      | .disk radius => projectOntoDisk radius p
      | .parabola curvature => projectOntoParabola curvature p := by
  cases constraint <;> simp [project, givesUpOn, hp]

/-- Every proper constraint takes the origin in place of a point that is not finite. -/
theorem project_of_not_finite (hc : constraint ≠ .unconstrained) (hp : p.isFinite = false) :
    constraint.project p = .origin := by
  cases constraint with
  | unconstrained => exact absurd rfl hc
  | disk radius => simp [project, givesUpOn, hp]
  | parabola curvature => simp [project, givesUpOn, hp]

end Constraint

end Downhill

import Downhill.Decimal
import Downhill.Sampling
import Downhill.Session.State

/-! # Refusals and notes as text

The text of a refusal says what is demanded and what was given.  Numbers in it are written
positionally, without a point if they are whole.

A note is one line.  Values stand in it with the name of their kind and, in braces, the names and
values of their parts; a value without parts is its name alone.  Numbers in them keep their point,
so that `5.0` is seen to be a number that need not be whole.  Gradient norms and thresholds range
over many orders of magnitude and are written with an exponent; the constants of the method are
written as they would be given.
-/

namespace Downhill

/-! ## 1. Refusals -/

/-- A number as it was given. -/
def givenText (x : Float) : String := Decimal.Layout.plain.text x

/-- What a setting demands, and the value given. -/
def InvalidSetting.message : InvalidSetting Float → String
  | .stepSize x => "step size must be finite and positive (got " ++ givenText x ++ ")"
  | .damping x => "damping factor must be in (0, 1] (got " ++ givenText x ++ ")"
  | .radius x => "disk radius must be finite and positive (got " ++ givenText x ++ ")"
  | .curvature x => "parabola curvature must be finite (got " ++ givenText x ++ ")"
  | .threshold x => "convergence threshold must be finite and positive (got " ++ givenText x ++ ")"
  | .initialPoint p =>
    "initial point must be finite (got (" ++ givenText p.x ++ ", " ++ givenText p.y ++ "))"
  | .bounds => "bounds must be finite with min < max"
  | .interval d => "run interval must be positive (got " ++ d.text ++ ")"

/-- What the coefficients of a form have to satisfy. -/
def InvalidForm.message : InvalidForm Float → String
  | .nonFinite => "coefficients must be finite"
  | .notPositiveDefinite a discriminant =>
    "form is not positive definite (a = " ++ givenText a ++ ", discriminant 4ac - b² = " ++
      givenText discriminant ++ ")"

/-- What is wrong with a range. -/
def InvalidRange.message : InvalidRange → String
  | .empty => "cannot sample empty range"
  | .overflow => "Uniform::new_inclusive: range overflow"

/-! ## 2. Values -/

/-- A named value with named parts. -/
def recordText (name : String) (parts : List (String × String)) : String :=
  if parts.isEmpty then name
  else
    name ++ " \x7b " ++ ", ".intercalate (parts.map fun part => part.1 ++ ": " ++ part.2) ++
      " \x7d"

/-- A number as part of a value. -/
def partText (x : Float) : String := Decimal.Layout.tagged.text x

/-- A point with its coordinates. -/
def Point.text (p : Point Float) : String :=
  recordText "Point2" [("x", partText p.x), ("y", partText p.y)]

/-- A step rule with its factor. -/
def StepRule.text : StepRule Float → String
  | .gradientDescent stepSize => recordText "GradientDescent" [("step_size", partText stepSize)]
  | .dampedNewton damping => recordText "DampedNewton" [("damping", partText damping)]

/-- A constraint with its shape. -/
def Constraint.text : Constraint Float → String
  | .unconstrained => recordText "Unconstrained" []
  | .disk radius => recordText "Disk" [("radius", partText radius)]
  | .parabola curvature => recordText "Parabola" [("curvature", partText curvature)]

/-- A timer with its number. -/
def TimerId.text (timer : TimerId) : String := "TimerId(" ++ toString timer.raw ++ ")"

/-! ## 3. Notes -/

/-- A number with an exponent. -/
def magnitudeText (x : Float) : String := Decimal.Layout.scientific.text x

/-- The name of a level. -/
def Level.name : Level → String
  | .debug => "DEBUG"
  | .info => "INFO"
  | .warn => "WARN"

/-- The line for a note. -/
def Note.text : Note Float → String
  | .stepIgnored mode => "step ignored while " ++ mode.name
  | .runIgnored mode => "run ignored while " ++ mode.name
  | .pauseIgnored mode => "pause ignored while " ++ mode.name
  | .staleTick timer mode => "stale tick " ++ timer.text ++ " ignored while " ++ mode.name
  | .runStarted interval p => "running every " ++ interval.text ++ " from " ++ p.text
  | .pausedAfter steps => "paused after " ++ toString steps ++ " steps"
  | .resetTo p => "reset to " ++ p.text
  | .randomStartAt p => "random start at " ++ p.text
  | .ruleSet rule => "step strategy set to " ++ rule.name ++ ": " ++ rule.text
  | .constraintSet constraint => "constraint set to " ++ constraint.text
  | .thresholdSet x => "convergence threshold set to " ++ magnitudeText x
  | .stepped iteration p q norm =>
    "step " ++ toString iteration ++ ": " ++ p.text ++ " → " ++ q.text ++ ", |∇f| = " ++
      magnitudeText norm
  | .convergedAfter steps p => "converged after " ++ toString steps ++ " steps at " ++ p.text
  | .clockStopped ticks now =>
    "advance_clock stopped after " ++ toString ticks ++ " ticks at " ++ now.text
  | .singularHessian tolerance stepSize =>
    "singular Hessian (|det| < " ++ givenText tolerance ++ "); taking a gradient step of " ++
      givenText stepSize
  | .projectedNonFinite p => "projecting non-finite point " ++ p.text ++
      "; falling back to the origin"
  | .samplingExhausted attempts constraint =>
    "no feasible sample after " ++ toString attempts ++ " attempts for " ++ constraint.text ++
      "; using fallback"

end Downhill

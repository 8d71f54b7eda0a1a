import Downhill.Constraint.Projection
import Downhill.StepRule
import Downhill.Time.HostTimers

/-! # Modes, steps, settings and notes of a session

A session waits at its start, runs on a timer, is paused between steps, or has converged.  An
accepted step is told as an event.

A session always has a step rule, a constraint and a convergence threshold.  Each can be replaced
at any time; a value that does not pass its check is refused and nothing changes.  So settings
that have passed their checks once stay `Valid`, whatever is set afterwards.

What an operation did, or declined to do, it reports as notes, in the order in which things
happened.  A note holds the values it speaks of; its wording is a matter of `Report/Note.lean`.
-/

namespace Downhill

/-! ## 1. Modes and accepted steps -/

/-- Where a session stands: no run has been started since the start, steps are taken whenever the
timer fires, a run was interrupted, or the threshold has been met. -/
inductive Mode where
  | idle
  | running
  | paused
  | converged
deriving DecidableEq, Repr

namespace Mode

/-- The mode as a word. -/
def name : Mode → String
  | idle => "idle"
  | running => "running"
  | paused => "paused"
  | converged => "converged"

/-- Single steps and new runs are possible. -/
def acceptsManualStep : Mode → Bool
  | idle => true
  | paused => true
  | running => false
  | converged => false

theorem acceptsManualStep_iff {m : Mode} :
    m.acceptsManualStep = true ↔ m ≠ .running ∧ m ≠ .converged := by
  cases m <;> decide

theorem acceptsManualStep_eq_false_iff {m : Mode} :
    m.acceptsManualStep = false ↔ m = .running ∨ m = .converged := by
  cases m <;> decide

theorem converged_or_accepts {m : Mode} (h : m ≠ .running) :
    m = .converged ∨ m.acceptsManualStep = true := by
  cases m with
  | running => exact absurd rfl h
  | converged => exact Or.inl rfl
  | idle | paused => exact Or.inr rfl

end Mode

/-- What an accepted step produced: its number, counted from one; the point the step rule proposed
and the feasible point that was accepted; the value of the objective and the length of the gradient
at the accepted point; and whether the step met the convergence threshold. -/
structure Event (α : Type) where
  iteration : Nat
  trial : Point α
  point : Point α
  objective : α
  gradientNorm : α
  converged : Bool
deriving DecidableEq, Repr

/-- The accepted point is not the proposed one.  An undefined coordinate differs from itself, so
a proposal with one counts as moved. -/
def Event.wasProjected {α : Type} [Scalar α] (e : Event α) : Bool := e.trial != e.point

/-- The settings that can be changed while a descent goes on: how the next point is proposed, where
the points may lie, and the gradient norm at which a descent has converged. -/
structure Config (α : Type) where
  rule : StepRule α
  constraint : Constraint α
  threshold : α
deriving DecidableEq, Repr

namespace Config

variable {α : Type} [Scalar α]

/-! ## 2. Making and replacing settings -/

/-- The default convergence threshold. -/
def defaultThreshold : α := 1e-6

/-- Gradient descent with step size one, unconstrained, with the default threshold. -/
def default : Config α := ⟨.default, .default, defaultThreshold⟩

/-- Refuses a threshold that is not finite and positive. -/
def checkThreshold (threshold : α) : Except (InvalidSetting α) Unit :=
  if Scalar.isFinite threshold && 0.0 < threshold then .ok () else .error (.threshold threshold)

/-- The settings, checked in the order rule, constraint, threshold. -/
def ofSettings (rule : StepRule α) (constraint : Constraint α) (threshold : α) :
    Except (InvalidSetting α) (Config α) := do
  rule.check
  constraint.check
  checkThreshold threshold
  return ⟨rule, constraint, threshold⟩

/-- Replaces the step rule, if it passes its check. -/
def setRule (config : Config α) (rule : StepRule α) : Except (InvalidSetting α) (Config α) := do
  rule.check
  return { config with rule := rule }

/-- Replaces the constraint, if it passes its check. -/
def setConstraint (config : Config α) (constraint : Constraint α) :
    Except (InvalidSetting α) (Config α) := do
  constraint.check
  return { config with constraint := constraint }

/-- Replaces the threshold, if it passes its check. -/
def setThreshold (config : Config α) (threshold : α) :
    Except (InvalidSetting α) (Config α) := do
  checkThreshold threshold
  return { config with threshold := threshold }

/-! ## 3. Settings that pass their checks -/

/-- Every setting passes its check. -/
structure Valid (config : Config α) : Prop where
  rule : config.rule.check = .ok ()
  constraint : config.constraint.check = .ok ()
  threshold : checkThreshold config.threshold = .ok ()

theorem checkThreshold_eq_ok_iff {threshold : α} :
    checkThreshold threshold = .ok () ↔ Scalar.isFinite threshold = true ∧ 0.0 < threshold := by
  simp [checkThreshold]

theorem ofSettings_eq_ok_iff {rule : StepRule α} {constraint : Constraint α} {threshold : α}
    {config : Config α} :
    ofSettings rule constraint threshold = .ok config ↔
      config = ⟨rule, constraint, threshold⟩ ∧ config.Valid := by
  simp only [ofSettings, bind_eq_ok_iff]
  constructor
  · rintro ⟨_, hr, _, hc, _, ht, h⟩
    cases h
    exact ⟨rfl, hr, hc, ht⟩
  · rintro ⟨rfl, hr, hc, ht⟩
    exact ⟨(), hr, (), hc, (), ht, rfl⟩

/-- A replaced setting passes its check, and the others are as they were. -/
theorem Valid.setRule {config config' : Config α} {rule : StepRule α} (h : config.Valid)
    (hset : config.setRule rule = .ok config') : config'.Valid := by
  obtain ⟨_, hr, hset⟩ := bind_eq_ok_iff.mp hset
  cases hset
  exact ⟨hr, h.constraint, h.threshold⟩

theorem Valid.setConstraint {config config' : Config α} {constraint : Constraint α}
    (h : config.Valid) (hset : config.setConstraint constraint = .ok config') :
    config'.Valid := by
  obtain ⟨_, hc, hset⟩ := bind_eq_ok_iff.mp hset
  cases hset
  exact ⟨h.rule, hc, h.threshold⟩

theorem Valid.setThreshold {config config' : Config α} {threshold : α} (h : config.Valid)
    (hset : config.setThreshold threshold = .ok config') : config'.Valid := by
  obtain ⟨_, ht, hset⟩ := bind_eq_ok_iff.mp hset
  cases hset
  exact ⟨h.rule, h.constraint, ht⟩

end Config

/-! ## 4. Notes -/

/-- How much a note matters.  `debug` is of interest when tracing a descent, `info` is a change that
a user asked for or the end of a descent, and `warn` means that something did not go as planned. -/
inductive Level where
  | debug
  | info
  | warn
deriving DecidableEq, Repr

/-- Something an operation reports.

* A step, a run or a pause was asked for in a mode that has none, or a timer was reported that the
  session does not wait for.
* A run was started at a point or paused after a number of steps, the session went back to its start
  or to a drawn one, or a setting was replaced.
* A step was accepted, from `origin` to `point`, and the last one met the threshold.
* A clock movement ended because of the number of timers it fired.
* A Newton rule met a Hessian that reads as singular, a point that is not finite was to be
  projected, or no candidate of a draw was admitted. -/
inductive Note (α : Type) where
  | stepIgnored (mode : Mode)
  | runIgnored (mode : Mode)
  | pauseIgnored (mode : Mode)
  | staleTick (timer : TimerId) (mode : Mode)
  | runStarted (interval : Duration) (iterate : Point α)
  | pausedAfter (steps : Nat)
  | resetTo (start : Point α)
  | randomStartAt (start : Point α)
  | ruleSet (rule : StepRule α)
  | constraintSet (constraint : Constraint α)
  | thresholdSet (threshold : α)
  | stepped (iteration : Nat) (origin point : Point α) (gradientNorm : α)
  | convergedAfter (steps : Nat) (point : Point α)
  | clockStopped (ticks : Nat) (now : Duration)
  | singularHessian (tolerance stepSize : α)
  | projectedNonFinite (point : Point α)
  | samplingExhausted (attempts : Nat) (constraint : Constraint α)
deriving DecidableEq, Repr

namespace Note

/-- How much the note matters. -/
def level {α : Type} : Note α → Level
  | runStarted .. | pausedAfter .. | resetTo .. | randomStartAt .. | convergedAfter .. => .info
  | clockStopped .. | singularHessian .. | projectedNonFinite .. | samplingExhausted .. => .warn
  | _ => .debug

end Note

variable {α : Type} [Scalar α]

/-- What a proposal by the rule reports. -/
def StepRule.notes (rule : StepRule α) (f : Objective α) : List (Note α) :=
  if rule.fallsBack f then [.singularHessian singularTolerance fallbackStepSize] else []

/-- What the projection of a point reports. -/
def Constraint.notes (constraint : Constraint α) (p : Point α) : List (Note α) :=
  if constraint.givesUpOn p then [.projectedNonFinite p] else []

end Downhill

import Downhill.Sampling
import Downhill.Session.State
import Downhill.Time.VirtualClock

/-! # Sessions

A session is one descent that can be watched and steered.  It keeps the point it started from,
the path since then and the readings of the current point; while it runs it also keeps the timer
it waits for.  These parts repeat one another: the last point of the path is the current point,
there is a timer exactly while the session runs, and so on.  `advance` is the only operation that
extends the path and takes new readings; it does both.

The convergence test looks at the gradient of the objective alone.  Under a constraint it is no
test of optimality, and a constrained descent may never converge.
-/

namespace Downhill

/-- What is known of the current point: where it is, how many steps have been accepted since the
start, the gradient norm found by the last of them, zero before the first, and whether it met the
threshold. -/
structure Readings (α : Type) where
  iterate : Point α
  iterationCount : Nat
  gradientNorm : α
  converged : Bool
deriving DecidableEq, Repr

namespace Readings

variable {α : Type}

/-- The readings at a start point, where nothing has been measured. -/
def atStart [Scalar α] (p : Point α) : Readings α := ⟨p, 0, 0.0, false⟩

/-- The readings after a step. -/
def ofEvent (e : Event α) : Readings α := ⟨e.point, e.iteration, e.gradientNorm, e.converged⟩

end Readings

/-- A descent in progress, over numbers `α`, timers from `σ` and random words from `γ`.

* `objective` is minimised in the settings of `config`.
* Timers come from `scheduler`, random starts from `source` and the rectangle `bounds`.
* `path` holds the point the descent started from and every accepted point, in order; `readings`
  tells what is known of the last of them.
* `timer` is the timer the session waits for and `interval` the time between two steps, of the
  current run or of the last one. -/
structure Session (α σ γ : Type) where
  objective : Objective α
  config : Config α
  scheduler : σ
  source : γ
  bounds : Bounds α
  mode : Mode
  start : Point α
  path : Array (Point α)
  readings : Readings α
  timer : Option TimerId
  interval : Duration

/-- The answer of an operation, the session after it, and the notes taken, the first one first. -/
structure Reply (β α σ γ : Type) where
  value : β
  next : Session α σ γ
  notes : List (Note α)

/-- The reply with its value transformed. -/
def Reply.map {β β' α σ γ : Type} (f : β → β') (r : Reply β α σ γ) : Reply β' α σ γ :=
  ⟨f r.value, r.next, r.notes⟩

namespace Session

variable {α σ γ : Type}

/-! ## 1. A new session -/

/-- A session waiting at its start, which must be finite.  The start need not be feasible: the
first step brings the descent to the feasible set. -/
def new [Scalar α] (objective : Objective α) (config : Config α) (initial : Point α)
    (scheduler : σ) (source : γ) : Except (InvalidSetting α) (Session α σ γ) :=
  if initial.isFinite then
    .ok {
      objective := objective
      config := config
      scheduler := scheduler
      source := source
      bounds := .sampling
      mode := .idle
      start := initial
      path := #[initial]
      readings := .atStart initial
      timer := none
      interval := .zero }
  else .error (.initialPoint initial)

/-- A session with settings that are checked first. -/
def ofSettings [Scalar α] (objective : Objective α) (constraint : Constraint α)
    (rule : StepRule α) (threshold : α) (initial : Point α) (scheduler : σ) (source : γ) :
    Except (InvalidSetting α) (Session α σ γ) := do
  let config ← Config.ofSettings rule constraint threshold
  new objective config initial scheduler source

/-- A session for the built-in form, with a clock of its own. -/
def bundled (config : Config Float) (initial : Point Float) (source : γ) :
    Except (InvalidSetting Float) (Session Float VirtualClock γ) :=
  new QuadraticForm.bundled.objective config initial .new source

/-- The session with another rectangle for random starts. -/
def withBounds (s : Session α σ γ) (bounds : Bounds α) : Session α σ γ :=
  { s with bounds := bounds }

/-! ## 2. Readings -/

/-- The current point: the last accepted one, or the start. -/
def iterate (s : Session α σ γ) : Point α := s.readings.iterate

/-- How many steps have been accepted since the start. -/
def iterationCount (s : Session α σ γ) : Nat := s.readings.iterationCount

/-- The gradient norm found by the last step, zero before the first. -/
def gradientNorm (s : Session α σ γ) : α := s.readings.gradientNorm

/-- Whether the last step met the threshold. -/
def isConverged (s : Session α σ γ) : Bool := s.readings.converged

/-- The path: the start and every accepted point. -/
def trajectory (s : Session α σ γ) : List (Point α) := s.path.toList

/-- The value of the objective at the current point. -/
def functionValue (s : Session α σ γ) : α := s.objective.evaluate s.iterate

/-- The timer the session waits for. -/
def pendingTimer (s : Session α σ γ) : Option TimerId := s.timer

/-! ## 3. One step -/

/-- The event of the step that follows, in the current settings: the proposal, its projection and
the readings there. -/
def nextEvent [Scalar α] (s : Session α σ γ) : Event α :=
  let trial := s.config.rule.propose s.objective s.iterate
  let point := s.config.constraint.project trial
  let gradientNorm := s.objective.slope point
  { iteration := s.iterationCount + 1
    trial := trial
    point := point
    objective := s.objective.evaluate point
    gradientNorm := gradientNorm
    converged := decide (gradientNorm ≤ s.config.threshold) }

/-- What the step with the given event reports. -/
def stepNotes [Scalar α] (s : Session α σ γ) (e : Event α) : List (Note α) :=
  s.config.rule.notes s.objective ++ s.config.constraint.notes e.trial ++
    .stepped e.iteration s.iterate e.point e.gradientNorm ::
      if e.converged then [.convergedAfter e.iteration e.point] else []

/-- The session with the step of the given event on its path and in its readings. -/
def record (s : Session α σ γ) (e : Event α) : Session α σ γ :=
  { s with path := s.path.push e.point, readings := .ofEvent e }

/-- The scheduler without the timer of the session. -/
def released [Scheduler σ] (s : Session α σ γ) : σ :=
  match s.timer with
  | some timer => Scheduler.cancel s.scheduler timer
  | none => s.scheduler

/-- The session without its timer, which is cancelled. -/
def cancelTimer [Scheduler σ] (s : Session α σ γ) : Session α σ γ :=
  { s with scheduler := s.released, timer := none }

/-- Takes the step that follows, whatever the mode.  A step that meets the threshold ends a
run. -/
def advance [Scalar α] [Scheduler σ] (s : Session α σ γ) : Reply (Event α) α σ γ :=
  let e := s.nextEvent
  let notes := s.stepNotes e
  let moved := s.record e
  ⟨e, if e.converged then { moved.cancelTimer with mode := .converged } else moved, notes⟩

/-! ## 4. What a step changes -/

theorem released_of_none [Scheduler σ] {s : Session α σ γ} (h : s.timer = none) :
    s.released = s.scheduler := by
  simp [released, h]

section Advance

variable [Scalar α] [Scheduler σ] (s : Session α σ γ)

@[simp] theorem advance_value : s.advance.value = s.nextEvent := rfl

theorem advance_of_converged (h : s.nextEvent.converged = true) :
    s.advance.next = { (s.record s.nextEvent).cancelTimer with mode := .converged } := by
  simp [advance, h]

theorem advance_of_not_converged (h : s.nextEvent.converged = false) :
    s.advance.next = s.record s.nextEvent := by
  simp [advance, h]

@[simp] theorem objective_advance : s.advance.next.objective = s.objective := by
  unfold advance; dsimp only; split <;> rfl

@[simp] theorem config_advance : s.advance.next.config = s.config := by
  unfold advance; dsimp only; split <;> rfl

@[simp] theorem source_advance : s.advance.next.source = s.source := by
  unfold advance; dsimp only; split <;> rfl

@[simp] theorem bounds_advance : s.advance.next.bounds = s.bounds := by
  unfold advance; dsimp only; split <;> rfl

@[simp] theorem start_advance : s.advance.next.start = s.start := by
  unfold advance; dsimp only; split <;> rfl

@[simp] theorem path_advance : s.advance.next.path = s.path.push s.nextEvent.point := by
  unfold advance; dsimp only; split <;> rfl

@[simp] theorem readings_advance : s.advance.next.readings = .ofEvent s.nextEvent := by
  unfold advance; dsimp only; split <;> rfl

@[simp] theorem trajectory_advance :
    s.advance.next.trajectory = s.trajectory ++ [s.nextEvent.point] := by
  simp [trajectory]

@[simp] theorem iterate_advance : s.advance.next.iterate = s.nextEvent.point := by
  simp [iterate, Readings.ofEvent]

@[simp] theorem iterationCount_advance :
    s.advance.next.iterationCount = s.iterationCount + 1 := by
  simp [iterationCount, Readings.ofEvent, nextEvent]

@[simp] theorem gradientNorm_advance :
    s.advance.next.gradientNorm = s.nextEvent.gradientNorm := by
  simp [gradientNorm, Readings.ofEvent]

@[simp] theorem isConverged_advance : s.advance.next.isConverged = s.nextEvent.converged := by
  simp [isConverged, Readings.ofEvent]

/-- A step ends the descent or leaves the mode as it is. -/
theorem mode_advance :
    s.advance.next.mode = if s.nextEvent.converged then .converged else s.mode := by
  unfold advance; dsimp only; split <;> rfl

/-- A step that ends the descent drops the timer, any other one keeps it. -/
theorem timer_advance :
    s.advance.next.timer = if s.nextEvent.converged then none else s.timer := by
  unfold advance; dsimp only; split <;> rfl

end Advance

end Session

end Downhill

import Downhill.Session.Basic

/-! # Steering a session

Every operation answers at once and completely: the session in its reply is never between two
steps.  An operation that does not fit the current mode changes nothing and only leaves a note.
A setting that does not pass its check is refused, and then nothing is noted either.

While a session runs it waits for exactly one timer.  When that timer fires, the session takes a
step and, unless it has converged, waits for a new one.

When the clock of the scheduler moves, every timer due on the way fires, also those that are
started on the way.  The deadline is at most the end of time, where a run could go on for ever,
so the number of timers fired by one movement is limited; when the limit is met, the clock stays
at the last timer fired and the next movement goes on from there.
-/

namespace Downhill.Session

variable {α σ γ : Type} [Scalar α] [Scheduler σ]

/-! ## 1. Steps and runs -/

/-- Takes one step, in a mode that allows it. -/
def step (s : Session α σ γ) : Reply (Option (Event α)) α σ γ :=
  if s.mode.acceptsManualStep then s.advance.map some
  else ⟨none, s, [.stepIgnored s.mode]⟩

/-- The session waiting for a new timer, due after its interval. -/
def wait (s : Session α σ γ) : Session α σ γ :=
  let issued := Scheduler.schedule s.scheduler s.interval
  { s with scheduler := issued.2, timer := some issued.1 }

/-- Starts taking a step after every interval, in a mode that allows it. -/
def run (s : Session α σ γ) (interval : Duration) :
    Reply (Except (InvalidSetting α) Unit) α σ γ :=
  if interval = .zero then ⟨.error (.interval interval), s, []⟩
  else if s.mode.acceptsManualStep then
    ⟨.ok (), { s with interval := interval, mode := .running }.wait,
      [.runStarted interval s.iterate]⟩
  else ⟨.ok (), s, [.runIgnored s.mode]⟩

/-- Takes a step of a run: the step, and a new timer unless it has converged. -/
def runStep (s : Session α σ γ) : Reply (Event α) α σ γ :=
  let moved := { s with timer := none }.advance
  ⟨moved.value, if moved.next.mode = .running then moved.next.wait else moved.next, moved.notes⟩

/-- Handles the firing of a timer: a step, if it is the timer the session waits for. -/
def tick (s : Session α σ γ) (timer : TimerId) : Reply (Option (Event α)) α σ γ :=
  if s.mode ≠ .running || s.timer ≠ some timer then ⟨none, s, [.staleTick timer s.mode]⟩
  else s.runStep.map some

/-- Interrupts a run.  The path stays. -/
def pause (s : Session α σ γ) : Reply Unit α σ γ :=
  if s.mode ≠ .running then ⟨(), s, [.pauseIgnored s.mode]⟩
  else ⟨(), { s.cancelTimer with mode := .paused }, [.pausedAfter s.iterationCount]⟩

/-! ## 2. Starting over -/

/-- The session waiting at the given point, with nothing accepted yet. -/
def restartAt (s : Session α σ γ) (p : Point α) : Session α σ γ :=
  { s with mode := .idle, path := #[p], readings := .atStart p }

/-- Goes back to the start point, the given one or the one drawn last. -/
def reset (s : Session α σ γ) : Reply Unit α σ γ :=
  ⟨(), s.cancelTimer.restartAt s.start, [.resetTo s.start]⟩

/-- What a draw reports. -/
def drawNotes (constraint : Constraint α) (d : Draw α γ) : List (Note α) :=
  if d.exhausted then [.samplingExhausted Draw.maxAttempts constraint] else []

/-- Draws a feasible start point and goes there.  A rectangle whose sides cannot be drawn from is
refused. -/
def randomStart [WordSource γ] (s : Session α σ γ) : Except InvalidRange (Reply Unit α σ γ) := do
  let d ← s.config.constraint.draw s.bounds s.source
  return ⟨(), { s.cancelTimer with source := d.source, start := d.point }.restartAt d.point,
    drawNotes s.config.constraint d ++ [.randomStartAt d.point]⟩

/-! ## 3. Settings -/

/-- The session with settings that were accepted, and a note about them; the session as it was,
if they were refused. -/
def withSettings (s : Session α σ γ) (settings : Except (InvalidSetting α) (Config α))
    (note : Note α) : Reply (Except (InvalidSetting α) Unit) α σ γ :=
  match settings with
  | .ok config => ⟨.ok (), { s with config := config }, [note]⟩
  | .error e => ⟨.error e, s, []⟩

/-- Replaces the step rule for the steps to come. -/
def setRule (s : Session α σ γ) (rule : StepRule α) :
    Reply (Except (InvalidSetting α) Unit) α σ γ :=
  s.withSettings (s.config.setRule rule) (.ruleSet rule)

/-- Replaces the constraint for the steps to come.  The current point stays where it is. -/
def setConstraint (s : Session α σ γ) (constraint : Constraint α) :
    Reply (Except (InvalidSetting α) Unit) α σ γ :=
  s.withSettings (s.config.setConstraint constraint) (.constraintSet constraint)

/-- Replaces the convergence threshold for the steps to come. -/
def setThreshold (s : Session α σ γ) (threshold : α) :
    Reply (Except (InvalidSetting α) Unit) α σ γ :=
  s.withSettings (s.config.setThreshold threshold) (.thresholdSet threshold)

/-! ## 4. Moving the clock -/

/-- How many timers one movement of the clock may fire. -/
def maxTicksPerAdvance : Nat := 10000

/-- Fires timers due by the deadline, at most `budget` of them, and then moves the clock to the
deadline. -/
def fireUntil (deadline : Duration) : Nat → Session α σ γ → Reply (List (Event α)) α σ γ
  | 0, s => ⟨[], s, [.clockStopped maxTicksPerAdvance (Scheduler.now s.scheduler)]⟩
  | budget + 1, s =>
    match Scheduler.popDue s.scheduler deadline with
    | none => ⟨[], { s with scheduler := Scheduler.advanceTo s.scheduler deadline }, []⟩
    | some (timer, scheduler) =>
      let fired := { s with scheduler := scheduler }.tick timer
      let rest := fireUntil deadline budget fired.next
      ⟨fired.value.toList ++ rest.value, rest.next, fired.notes ++ rest.notes⟩

/-- Moves the clock forward and returns the events of all steps taken on the way. -/
def advanceClock (s : Session α σ γ) (elapsed : Duration) : Reply (List (Event α)) α σ γ :=
  fireUntil (Scheduler.now s.scheduler + elapsed) maxTicksPerAdvance s

/-! ## 5. What settings, steps and ticks do -/

section WithSettings

omit [Scalar α] [Scheduler σ]

variable (s : Session α σ γ) {check : Except (InvalidSetting α) Unit} (config : Config α)
  (note : Note α)

/-- A replaced setting is answered by its check. -/
theorem value_withSettings : (s.withSettings (do check; return config) note).value = check := by
  cases check <;> rfl

theorem next_withSettings_of_ok (h : check = .ok ()) :
    (s.withSettings (do check; return config) note).next = { s with config := config } := by
  rw [h]; rfl

theorem next_withSettings_of_ne (h : check ≠ .ok ()) :
    (s.withSettings (do check; return config) note).next = s := by
  cases check with
  | ok => exact absurd rfl h
  | error e => rfl

end WithSettings

/-- In a mode that allows it the next step is taken. -/
theorem step_eq {s : Session α σ γ} (hm : s.mode.acceptsManualStep = true) :
    s.step = ⟨some s.nextEvent, s.advance.next, s.advance.notes⟩ :=
  if_pos hm

/-- A step is taken in a mode that allows it, else nothing happens. -/
theorem step_cases (s : Session α σ γ) :
    (s.mode.acceptsManualStep = true ∧ s.step = s.advance.map some) ∨
      (s.mode.acceptsManualStep = false ∧ s.step = ⟨none, s, [.stepIgnored s.mode]⟩) := by
  unfold step
  cases h : s.mode.acceptsManualStep with
  | true => exact Or.inl ⟨rfl, rfl⟩
  | false => exact Or.inr ⟨rfl, rfl⟩

/-- A tick is honoured if the session runs and waits for the timer, else nothing happens. -/
theorem tick_cases (s : Session α σ γ) (timer : TimerId) :
    (s.mode = .running ∧ s.timer = some timer ∧ s.tick timer = s.runStep.map some) ∨
      (¬ (s.mode = .running ∧ s.timer = some timer) ∧
        s.tick timer = ⟨none, s, [.staleTick timer s.mode]⟩) := by
  unfold tick
  by_cases hm : s.mode = .running
  · by_cases ht : s.timer = some timer
    · exact Or.inl ⟨hm, ht, by simp [hm, ht]⟩
    · exact Or.inr ⟨fun h => ht h.2, by simp [ht]⟩
  · exact Or.inr ⟨fun h => hm h.1, by simp [hm]⟩

/-- A step of a run that meets the threshold leaves no timer behind, any other one waits again. -/
theorem runStep_cases {s : Session α σ γ} (hm : s.mode = .running) :
    (s.nextEvent.converged = true ∧
      s.runStep.next = { s.record s.nextEvent with timer := none, mode := .converged }) ∨
      (s.nextEvent.converged = false ∧
        s.runStep.next = { s.record s.nextEvent with timer := none }.wait) := by
  cases he : s.nextEvent.converged with
  | true =>
    refine Or.inl ⟨rfl, ?_⟩
    have h := advance_of_converged { s with timer := none } he
    simp only [runStep, h, reduceCtorEq, if_false]
    rfl
  | false =>
    refine Or.inr ⟨rfl, ?_⟩
    have h := advance_of_not_converged { s with timer := none } he
    simp only [runStep, h]
    exact if_pos hm

section RunStep

variable (s : Session α σ γ)

@[simp] theorem objective_runStep : s.runStep.next.objective = s.objective := by
  unfold runStep; dsimp only; split <;> simp [wait]

@[simp] theorem config_runStep : s.runStep.next.config = s.config := by
  unfold runStep; dsimp only; split <;> simp [wait]

@[simp] theorem source_runStep : s.runStep.next.source = s.source := by
  unfold runStep; dsimp only; split <;> simp [wait]

@[simp] theorem bounds_runStep : s.runStep.next.bounds = s.bounds := by
  unfold runStep; dsimp only; split <;> simp [wait]

@[simp] theorem start_runStep : s.runStep.next.start = s.start := by
  unfold runStep; dsimp only; split <;> simp [wait]

@[simp] theorem path_runStep : s.runStep.next.path = s.path.push s.nextEvent.point := by
  unfold runStep; dsimp only; split <;> simp [wait] <;> rfl

@[simp] theorem readings_runStep : s.runStep.next.readings = .ofEvent s.nextEvent := by
  unfold runStep; dsimp only; split <;> simp [wait] <;> rfl

end RunStep

end Downhill.Session

import Downhill.Proofs.Session.Reachable
import Downhill.Random.Xoshiro

/-! # The parts of a session agree

A session keeps several parts that repeat one another: the mode and the timer, the path and the
readings, the readings and the mode.  Each operation writes some of them, and some operations
contain others.  After every history all of them tell the same story.

* `Recorded`: path, readings, start and mode agree on what has been accepted.  This much holds
  also inside a tick, where the mode says "running" while there is no timer.
* `Coherent`: all of it, with checked settings and a usable interval.
* `Coherent.turn`, `Reachable.coherent`: whatever is done to a session, it stays coherent.
-/

namespace Downhill.Session

variable {α σ γ : Type} [Scalar α]

/-! ## 1. What is to agree -/

/-- Path, readings, start and mode tell the same story.  The mode says "converged" exactly if the
readings do.  The path leads from the start to the current point and has one point more than there
were steps.  The gradient norm reads zero before the first step, and after it is the one at the
current point. -/
structure Recorded (s : Session α σ γ) : Prop where
  converged : s.mode = .converged ↔ s.isConverged = true
  first : s.trajectory.head? = some s.start
  last : s.trajectory.getLast? = some s.iterate
  length : s.trajectory.length = s.iterationCount + 1
  unmeasured : s.iterationCount = 0 → s.gradientNorm = 0.0
  measured : s.iterationCount ≠ 0 → s.gradientNorm = (s.objective.gradient s.iterate).norm

/-- All parts of the session agree.  Besides, there is a timer exactly while the session runs, every
setting passes its check, and a session that runs has an interval to wait. -/
structure Coherent (s : Session α σ γ) : Prop extends Recorded s where
  timer : s.pendingTimer.isSome = true ↔ s.mode = .running
  rule : s.config.rule.check = .ok ()
  constraint : s.config.constraint.check = .ok ()
  threshold : Scalar.isFinite s.config.threshold = true ∧ 0.0 < s.config.threshold
  interval : s.mode = .running → s.interval ≠ .zero

theorem Coherent.valid {s : Session α σ γ} (h : s.Coherent) : s.config.Valid :=
  ⟨h.rule, h.constraint, Config.checkThreshold_eq_ok_iff.mpr h.threshold⟩

/-- Only five parts matter to `Recorded`, and of the mode only whether it says "converged". -/
theorem Recorded.congr {s s' : Session α σ γ} (h : s.Recorded)
    (hm : s'.mode = .converged ↔ s.mode = .converged) (hp : s'.path = s.path)
    (hr : s'.readings = s.readings) (hs : s'.start = s.start)
    (ho : s'.objective = s.objective) : s'.Recorded where
  converged := by rw [hm, h.converged, isConverged, isConverged, hr]
  first := by rw [trajectory, hp, hs]; exact h.first
  last := by rw [trajectory, iterate, hp, hr]; exact h.last
  length := by rw [trajectory, iterationCount, hp, hr]; exact h.length
  unmeasured := by rw [iterationCount, gradientNorm, hr]; exact h.unmeasured
  measured := by rw [iterationCount, gradientNorm, iterate, hr, ho]; exact h.measured

/-- A session without a timer is coherent if it does not run. -/
theorem Recorded.still {s : Session α σ γ} (h : s.Recorded) (hc : s.config.Valid)
    (hm : s.mode ≠ .running) (ht : s.timer = none) : s.Coherent where
  toRecorded := h
  timer := by simp [pendingTimer, ht, hm]
  rule := hc.rule
  constraint := hc.constraint
  threshold := Config.checkThreshold_eq_ok_iff.mp hc.threshold
  interval := fun h => absurd h hm

/-- A session that has been given a timer is coherent if it runs. -/
theorem Recorded.wait [Scheduler σ] {s : Session α σ γ} (h : s.Recorded) (hc : s.config.Valid)
    (hm : s.mode = .running) (hi : s.interval ≠ .zero) : s.wait.Coherent where
  toRecorded := h.congr Iff.rfl rfl rfl rfl rfl
  timer := by simp [pendingTimer, Session.wait, hm]
  rule := hc.rule
  constraint := hc.constraint
  threshold := Config.checkThreshold_eq_ok_iff.mp hc.threshold
  interval := fun _ => hi

/-! ## 2. What does not disturb it -/

theorem Coherent.timer_eq_none {s : Session α σ γ} (h : s.Coherent) (hm : s.mode ≠ .running) :
    s.timer = none := by
  have := mt h.timer.mp hm
  simpa [pendingTimer] using this

theorem Coherent.running_of_timer {s : Session α σ γ} (h : s.Coherent) {id : TimerId}
    (ht : s.timer = some id) : s.mode = .running :=
  h.timer.mp (by simp [pendingTimer, ht])

/-- The clock may move, and timers of others may come and go. -/
theorem Coherent.withScheduler {s : Session α σ γ} (h : s.Coherent) (c : σ) :
    Coherent { s with scheduler := c } where
  toRecorded := h.toRecorded.congr Iff.rfl rfl rfl rfl rfl
  timer := h.timer
  rule := h.rule
  constraint := h.constraint
  threshold := h.threshold
  interval := h.interval

/-- Checked settings may take the place of others. -/
theorem Coherent.withConfig {s : Session α σ γ} (h : s.Coherent) {config : Config α}
    (hc : config.Valid) : Coherent { s with config := config } where
  toRecorded := h.toRecorded.congr Iff.rfl rfl rfl rfl rfl
  timer := h.timer
  rule := hc.rule
  constraint := hc.constraint
  threshold := Config.checkThreshold_eq_ok_iff.mp hc.threshold
  interval := h.interval

theorem valid_settings {m : Move α} {config config' : Config α} (h : config.Valid)
    (hset : m.settings config = some (.ok config')) : config'.Valid := by
  cases m with
  | setRule rule => exact h.setRule (Option.some.inj hset)
  | setConstraint constraint => exact h.setConstraint (Option.some.inj hset)
  | setThreshold threshold => exact h.setThreshold (Option.some.inj hset)
  | _ => cases hset

/-! ## 3. The start -/

theorem AtStart.recorded {s : Session α σ γ} (h : s.AtStart) : s.Recorded where
  converged := by simp [h.mode, isConverged, h.readings, Readings.atStart]
  first := by simp [trajectory, h.path]
  last := by simp [trajectory, h.path, iterate, h.readings, Readings.atStart]
  length := by simp [trajectory, h.path, iterationCount, h.readings, Readings.atStart]
  unmeasured := by simp [gradientNorm, h.readings, Readings.atStart]
  measured := by simp [iterationCount, h.readings, Readings.atStart]

/-- A session at its start with valid settings is coherent. -/
theorem AtStart.coherent {s : Session α σ γ} (h : s.AtStart) (hc : s.config.Valid) :
    s.Coherent :=
  h.recorded.still hc (by simp [h.mode]) h.timer

/-! ## 4. One step -/

section Step

variable [Scheduler σ]

/-- A step keeps path and readings together, unless the descent was over already. -/
theorem Recorded.advance {s : Session α σ γ} (h : s.Recorded) (hm : s.mode ≠ .converged) :
    s.advance.next.Recorded where
  converged := by cases he : s.nextEvent.converged <;> simp [mode_advance, he, hm]
  first := by simp [h.first]
  last := by simp
  length := by simp [h.length]
  unmeasured := by simp
  measured := by simp [nextEvent, Objective.slope]

/-- A single step keeps everything together: in a mode that allows it there is no timer. -/
theorem Coherent.step {s : Session α σ γ} (h : s.Coherent)
    (ha : s.mode.acceptsManualStep = true) : s.advance.next.Coherent := by
  obtain ⟨hrun, hconv⟩ := Mode.acceptsManualStep_iff.mp ha
  have ht : s.timer = none := h.timer_eq_none hrun
  refine (h.toRecorded.advance hconv).still (by simpa using h.valid) ?_ ?_
  · rw [mode_advance]
    split
    · simp
    · exact hrun
  · rw [timer_advance]
    split
    · rfl
    · exact ht

/-- A step of a run keeps everything together.  Inside it the session runs without a timer, so
the parts are followed through it one by one. -/
theorem Coherent.runStep {s : Session α σ γ} (h : s.Coherent) (hm : s.mode = .running) :
    s.runStep.next.Coherent := by
  have hrec := h.toRecorded.advance (by simp [hm])
  rcases runStep_cases hm with ⟨he, heq⟩ | ⟨he, heq⟩
  · rw [heq]
    refine (hrec.congr ?_ ?_ ?_ ?_ ?_).still h.valid (by simp) rfl
    all_goals simp [record, mode_advance, he]
  · rw [heq]
    refine (hrec.congr ?_ ?_ ?_ ?_ ?_).wait h.valid hm (h.interval hm)
    all_goals simp [record, mode_advance, he]

/-- A new run has a timer and an interval. -/
theorem Coherent.run {s : Session α σ γ} {interval : Duration} (h : s.Coherent)
    (ha : s.mode.acceptsManualStep = true) (hi : interval ≠ .zero) :
    Session.Coherent { s with interval := interval, mode := .running }.wait := by
  have hconv : s.mode ≠ .converged := (Mode.acceptsManualStep_iff.mp ha).2
  have hrec : Recorded { s with interval := interval, mode := .running } :=
    h.toRecorded.congr (by simp [hconv]) rfl rfl rfl rfl
  exact hrec.wait h.valid rfl hi

/-- An interrupted run has lost its timer. -/
theorem Coherent.pause {s : Session α σ γ} (h : s.Coherent) (hm : s.mode = .running) :
    Session.Coherent { s.cancelTimer with mode := .paused } := by
  have hrec : Recorded { s.cancelTimer with mode := .paused } :=
    h.toRecorded.congr (by simp [hm]) rfl rfl rfl rfl
  exact hrec.still h.valid (by simp) rfl

end Step

/-! ## 5. Turns and histories -/

variable [Scheduler σ] [WordSource γ]

/-- **A turn keeps a session coherent.** -/
theorem Coherent.turn {t : Turn α σ γ} (ht : t.Sound) (h : t.before.Coherent) :
    t.after.Coherent := by
  cases ht with
  | refused _ => exact h
  | step ha => exact h.step ha
  | run ha hi => exact h.run ha hi
  | tick hm _ => exact h.runStep hm
  | pause hm => exact h.pause hm
  | reset s => exact AtStart.coherent ⟨rfl, rfl, rfl, rfl⟩ h.valid
  | randomStart _ => exact AtStart.coherent ⟨rfl, rfl, rfl, rfl⟩ h.valid
  | set hset => exact h.withConfig (valid_settings h.valid hset)
  | fire _ hm _ => exact (h.withScheduler _).runStep hm
  | drop _ _ => exact h.withScheduler _
  | settle _ => exact h.withScheduler _

theorem Coherent.linked {s s' : Session α σ γ} {ts : List (Turn α σ γ)} (h : s.Coherent)
    (hts : Linked s ts s') : s'.Coherent := by
  have hturn : ∀ (past : List (Turn α σ γ)) (t : Turn α σ γ), t.Sound →
      t.before.Coherent → t.after.Coherent := fun _ _ ht => Coherent.turn ht
  exact hts.induct hturn [] h

/-- Reachable sessions are coherent, whatever scheduler they were opened over. -/
theorem Reachable.coherent {scheduler : σ} {s : Session α σ γ} (h : Reachable scheduler s) :
    s.Coherent := by
  obtain ⟨s₀, cs, r, h₀, hr, rfl⟩ := h
  obtain ⟨hs, hc, _⟩ := h₀.fresh
  exact (hs.coherent hc).linked (linked_turns hr)

theorem objective_linked {s s' : Session α σ γ} {ts : List (Turn α σ γ)} (h : Linked s ts s') :
    s'.objective = s.objective := by
  induction h with
  | nil => rfl
  | cons ht _ ih => rw [ih, ht.objective]

/-- **Whatever is done to a session, its parts agree.**

After any history of a session that was opened over any scheduler, there is a timer exactly while
the session runs; the mode says "converged" exactly if the readings do; the path leads from the
start to the current point and has one point more than there were steps; the gradient norm is
zero before the first step and the one at the current point after it; the settings pass their
checks; and a session that runs has an interval to wait. -/
theorem parts_agree_after_play {scheduler : σ} {s₀ : Session α σ γ} (h₀ : Opened scheduler s₀)
    {cs : List (Command α)} {r : Reply (List (Answer α)) α σ γ} (h : s₀.play cs = .ok r) :
    let s := r.next
    (s.pendingTimer.isSome = true ↔ s.mode = .running) ∧
    (s.mode = .converged ↔ s.isConverged = true) ∧
    s.trajectory.head? = some s.start ∧
    s.trajectory.getLast? = some s.iterate ∧
    s.trajectory.length = s.iterationCount + 1 ∧
    s.gradientNorm =
      (if s.iterationCount = 0 then 0.0 else (s₀.objective.gradient s.iterate).norm) ∧
    s.config.rule.check = .ok () ∧
    s.config.constraint.check = .ok () ∧
    (Scalar.isFinite s.config.threshold = true ∧ 0.0 < s.config.threshold) ∧
    (s.mode = .running → s.interval ≠ .zero) := by
  have hc : r.next.Coherent := Reachable.coherent ⟨s₀, cs, r, h₀, h, rfl⟩
  have ho : r.next.objective = s₀.objective := objective_linked (linked_turns h)
  refine ⟨hc.timer, hc.converged, hc.first, hc.last, hc.length, ?_, hc.rule, hc.constraint,
    hc.threshold, hc.interval⟩
  split
  · rename_i hn; exact hc.unmeasured hn
  · rename_i hn; rw [← ho]; exact hc.measured hn

/-- A run of three steps, an interruption, a single step and a new run. -/
def twoRuns : List (Command Float) :=
  [.run (.ofNanos 1000000), .advanceClock (.ofNanos 3000000), .pause, .step,
    .run (.ofNanos 2000000)]

/-- The parts of the bundled session after two runs. -/
theorem parts_agree_after_two_runs :
    ∃ (s₀ : Session Float VirtualClock Xoshiro)
      (r : Reply (List (Answer Float)) Float VirtualClock Xoshiro),
      bundled .default ⟨25.0, 15.0⟩ (Xoshiro.ofSeed 7) = .ok s₀ ∧ s₀.play twoRuns = .ok r ∧
      r.next.mode = .running ∧ r.next.iterationCount = 4 ∧
      r.next.pendingTimer.isSome = true ∧ r.next.trajectory.length = 5 ∧
      r.next.gradientNorm = (s₀.objective.gradient r.next.iterate).norm := by
  refine exists_played (opened_bundled Config.made_default)
    (fun _ r => r.next.mode = .running ∧ r.next.iterationCount = 4) rfl rfl (by decide +kernel) ?_
  rintro s₀ r hs hr ⟨hm, hn⟩
  obtain ⟨htimer, -, -, -, hlength, hnorm, -⟩ := parts_agree_after_play hs hr
  rw [hn] at hlength hnorm
  exact ⟨hm, hn, htimer.mpr hm, hlength, hnorm⟩

end Downhill.Session

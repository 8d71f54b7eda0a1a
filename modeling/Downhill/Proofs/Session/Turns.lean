import Downhill.Session.Command

/-! # Histories, turn by turn

A command may do several things to a session: an advance of the clock fires one timer after the
other, a descent interrupts a run and then takes single steps.  `turns` writes a history out as
the list of these single things.  Each *turn* holds the session before and after it and the step
it took, if it took one.

* `Turn.Sound` says what a turn can do, one clause for each way in which an operation can go.
  Everything that is proved about sessions is proved of a sound turn first.
* `linked_turns`: the turns of a history are sound and lead from its first session to its last
  one, each beginning where the one before it ended.
* `events_turns`: the steps of the turns are the steps that the answers tell of.
* `Linked.induct`: what every sound turn preserves, every history preserves.
-/

namespace Downhill

variable {α σ γ : Type}

/-! ## 1. Turns -/

/-- What is done to a session in one turn.  All but the last two are commands.  While the clock
moves, a timer that comes due is reported to the session (`fire`); when all timers due by the
deadline have fired, the clock moves there (`settle`). -/
inductive Move (α : Type) where
  | step
  | run (interval : Duration)
  | tick (timer : TimerId)
  | pause
  | reset
  | randomStart
  | setRule (rule : StepRule α)
  | setConstraint (constraint : Constraint α)
  | setThreshold (threshold : α)
  | fire (timer : TimerId)
  | settle (deadline : Duration)

/-- The move begins a new descent. -/
def Move.restarts : Move α → Bool
  | .reset | .randomStart => true
  | _ => false

/-- One move, with the session before and after it and the step it took. -/
structure Turn (α σ γ : Type) where
  before : Session α σ γ
  move : Move α
  event : Option (Event α)
  after : Session α σ γ

/-- What becomes of the settings by a move that is about settings. -/
def Move.settings [Scalar α] (config : Config α) :
    Move α → Option (Except (InvalidSetting α) (Config α))
  | .setRule rule => some (config.setRule rule)
  | .setConstraint constraint => some (config.setConstraint constraint)
  | .setThreshold threshold => some (config.setThreshold threshold)
  | _ => none

/-- The move does not fit the session: the mode is wrong, the timer is not the one the session
waits for, or a value does not pass its check. -/
def Session.Refuses [Scalar α] (s : Session α σ γ) : Move α → Prop
  | .step => s.mode.acceptsManualStep = false
  | .run interval => interval = .zero ∨ s.mode.acceptsManualStep = false
  | .tick timer => ¬ (s.mode = .running ∧ s.timer = some timer)
  | .pause => s.mode ≠ .running
  | m => ∃ e, m.settings s.config = some (.error e)

/-- A restart is never refused. -/
theorem Session.not_refuses_of_restarts [Scalar α] {s : Session α σ γ} {m : Move α}
    (h : m.restarts = true) : ¬s.Refuses m := by
  cases m with
  | reset | randomStart => rintro ⟨e, he⟩; cases he
  | _ => cases h

/-- What a turn can do.  A refused move changes nothing. -/
inductive Turn.Sound [Scalar α] [Scheduler σ] [WordSource γ] : Turn α σ γ → Prop where
  | refused {s : Session α σ γ} {m : Move α} (h : s.Refuses m) : Sound ⟨s, m, none, s⟩
  | step {s : Session α σ γ} (h : s.mode.acceptsManualStep = true) :
      Sound ⟨s, .step, some s.nextEvent, s.advance.next⟩
  | run {s : Session α σ γ} {interval : Duration} (h : s.mode.acceptsManualStep = true)
      (hi : interval ≠ .zero) :
      Sound ⟨s, .run interval, none, { s with interval := interval, mode := .running }.wait⟩
  | tick {s : Session α σ γ} {timer : TimerId} (hm : s.mode = .running)
      (ht : s.timer = some timer) : Sound ⟨s, .tick timer, some s.nextEvent, s.runStep.next⟩
  | pause {s : Session α σ γ} (hm : s.mode = .running) :
      Sound ⟨s, .pause, none, { s.cancelTimer with mode := .paused }⟩
  | reset (s : Session α σ γ) : Sound ⟨s, .reset, none, s.cancelTimer.restartAt s.start⟩
  | randomStart {s : Session α σ γ} {d : Draw α γ}
      (h : s.config.constraint.draw s.bounds s.source = .ok d) :
      Sound ⟨s, .randomStart, none,
        { s.cancelTimer with source := d.source, start := d.point }.restartAt d.point⟩
  | set {s : Session α σ γ} {m : Move α} {config : Config α}
      (h : m.settings s.config = some (.ok config)) :
      Sound ⟨s, m, none, { s with config := config }⟩
  | fire {s : Session α σ γ} {timer : TimerId} {c : σ} {deadline : Duration}
      (hpop : Scheduler.popDue s.scheduler deadline = some (timer, c)) (hm : s.mode = .running)
      (ht : s.timer = some timer) :
      Sound ⟨s, .fire timer, some s.nextEvent, { s with scheduler := c }.runStep.next⟩
  | drop {s : Session α σ γ} {timer : TimerId} {c : σ} {deadline : Duration}
      (hpop : Scheduler.popDue s.scheduler deadline = some (timer, c))
      (h : ¬ (s.mode = .running ∧ s.timer = some timer)) :
      Sound ⟨s, .fire timer, none, { s with scheduler := c }⟩
  | settle {s : Session α σ γ} {deadline : Duration}
      (hpop : Scheduler.popDue s.scheduler deadline = none) :
      Sound ⟨s, .settle deadline, none,
        { s with scheduler := Scheduler.advanceTo s.scheduler deadline }⟩

/-- Sound turns in a row, from one session to another. -/
inductive Linked [Scalar α] [Scheduler σ] [WordSource γ] :
    Session α σ γ → List (Turn α σ γ) → Session α σ γ → Prop where
  | nil (s : Session α σ γ) : Linked s [] s
  | cons {t : Turn α σ γ} {ts : List (Turn α σ γ)} {s : Session α σ γ} (ht : t.Sound)
      (h : Linked t.after ts s) : Linked t.before (t :: ts) s

section Linked

variable [Scalar α] [Scheduler σ] [WordSource γ]

theorem Linked.single {t : Turn α σ γ} (ht : t.Sound) : Linked t.before [t] t.after :=
  .cons ht (.nil _)

theorem Linked.append {s s' s'' : Session α σ γ} {ts us : List (Turn α σ γ)}
    (h : Linked s ts s') (h' : Linked s' us s'') : Linked s (ts ++ us) s'' := by
  induction h with
  | nil => exact h'
  | cons ht _ ih => exact .cons ht (ih h')

/-- **What a sound turn preserves, a history preserves.**  The property may speak of the turns so
far. -/
theorem Linked.induct {P : List (Turn α σ γ) → Session α σ γ → Prop}
    (hturn : ∀ (past : List (Turn α σ γ)) (t : Turn α σ γ), t.Sound → P past t.before →
      P (past ++ [t]) t.after)
    {s s' : Session α σ γ} {ts : List (Turn α σ γ)} (h : Linked s ts s') :
    ∀ past, P past s → P (past ++ ts) s' := by
  induction h with
  | nil => intro past hp; simpa using hp
  | @cons t ts s' ht _ ih =>
    intro past hp
    have := ih (past ++ [t]) (hturn past t ht hp)
    simpa using this

end Linked

/-! ## 2. The turns of a history -/

namespace Session

section Turns

variable [Scalar α] [Scheduler σ]

/-- A number of single steps. -/
def stepTurns : Nat → Session α σ γ → List (Turn α σ γ)
  | 0, _ => []
  | n + 1, s => ⟨s, .step, s.step.value, s.step.next⟩ :: stepTurns n s.step.next

/-- What the clock does on its way to a deadline, firing at most `budget` timers. -/
def fireTurns (deadline : Duration) : Nat → Session α σ γ → List (Turn α σ γ)
  | 0, _ => []
  | budget + 1, s =>
    match Scheduler.popDue s.scheduler deadline with
    | none => [⟨s, .settle deadline, none,
        { s with scheduler := Scheduler.advanceTo s.scheduler deadline }⟩]
    | some (timer, scheduler) =>
      let fired := { s with scheduler := scheduler }.tick timer
      ⟨s, .fire timer, fired.value, fired.next⟩ :: fireTurns deadline budget fired.next

/-- The turns of one command.  A random start that is refused has none. -/
def turnsOf [WordSource γ] (s : Session α σ γ) : Command α → List (Turn α σ γ)
  | .step => [⟨s, .step, s.step.value, s.step.next⟩]
  | .run interval => [⟨s, .run interval, none, (s.run interval).next⟩]
  | .tick timer => [⟨s, .tick timer, (s.tick timer).value, (s.tick timer).next⟩]
  | .pause => [⟨s, .pause, none, s.pause.next⟩]
  | .reset => [⟨s, .reset, none, s.reset.next⟩]
  | .randomStart =>
    match s.randomStart with
    | .ok r => [⟨s, .randomStart, none, r.next⟩]
    | .error _ => []
  | .setRule rule => [⟨s, .setRule rule, none, (s.setRule rule).next⟩]
  | .setConstraint constraint =>
    [⟨s, .setConstraint constraint, none, (s.setConstraint constraint).next⟩]
  | .setThreshold threshold => [⟨s, .setThreshold threshold, none, (s.setThreshold threshold).next⟩]
  | .advanceClock elapsed =>
    fireTurns (Scheduler.now s.scheduler + elapsed) maxTicksPerAdvance s
  | .descend limit stops =>
    ⟨s, .pause, none, s.pause.next⟩ ::
      stepTurns (s.descend (.remembering stops) limit []).value.1.steps s.pause.next

/-- The turns of a history, up to a random start that is refused. -/
def turns [WordSource γ] (s : Session α σ γ) : List (Command α) → List (Turn α σ γ)
  | [] => []
  | command :: rest =>
    match s.perform command with
    | .ok r => s.turnsOf command ++ r.next.turns rest
    | .error _ => []

/-- The observer of a descent is shown the step of each turn, once and in order. -/
theorem watched_stepUntil (stops : List (Event α) → Bool) :
    ∀ (limit : Nat) (w : List (Event α)) (s : Session α σ γ),
      (s.stepUntil (.remembering stops) limit w).value.watched =
        ((s.stepTurns (s.stepUntil (.remembering stops) limit w).value.steps).filterMap
          Turn.event).reverse ++ w
  | limit, w, s => by
    unfold stepUntil
    split
    · rfl
    · split
      · rfl
      · rename_i limit
        rcases s.step_cases with ⟨_, h⟩ | ⟨_, h⟩
        · rw [h]
          simp only [Reply.map, Observer.remembering]
          cases stops (s.advance.value :: w) with
          | true => simp [stepTurns, h, Reply.map]
          | false =>
            have ih := watched_stepUntil stops limit (s.nextEvent :: w) s.advance.next
            simp [stepTurns, h, Reply.map, ih]
        · rw [h]; rfl

/-- Moving the clock returns the step of each turn. -/
theorem events_fireTurns (deadline : Duration) : ∀ (budget : Nat) (s : Session α σ γ),
    (s.fireTurns deadline budget).filterMap Turn.event = (fireUntil deadline budget s).value
  | 0, s => rfl
  | budget + 1, s => by
    cases hpop : Scheduler.popDue s.scheduler deadline with
    | none => simp [fireTurns, fireUntil, hpop]
    | some fired =>
      obtain ⟨timer, c⟩ := fired
      have ih := events_fireTurns deadline budget ({ s with scheduler := c }.tick timer).next
      cases hv : ({ s with scheduler := c }.tick timer).value <;>
        simp [fireTurns, fireUntil, hpop, hv, ih]

end Turns

end Session

/-- The steps an answer tells of. -/
def Answer.events : Answer α → List (Event α)
  | .step event => event.toList
  | .advanced events => events
  | .descended _ shown => shown
  | _ => []

@[simp] theorem Answer.events_ofSetting (x : Except (InvalidSetting α) Unit) :
    (Answer.ofSetting x).events = [] := by
  cases x <;> rfl

/-! ## 3. Every turn of a history is sound -/

section Sound

variable [Scalar α] [Scheduler σ] [WordSource γ]

namespace Turn

theorem sound_step (s : Session α σ γ) : Sound ⟨s, .step, s.step.value, s.step.next⟩ := by
  unfold Session.step
  split
  · rename_i h; exact .step h
  · rename_i h; exact .refused (by simpa [Session.Refuses] using h)

theorem sound_run (s : Session α σ γ) (interval : Duration) :
    Sound ⟨s, .run interval, none, (s.run interval).next⟩ := by
  unfold Session.run
  split
  · rename_i h; exact .refused (Or.inl h)
  · rename_i hi
    split
    · rename_i h; exact .run h hi
    · rename_i h; exact .refused (Or.inr (by simpa using h))

theorem sound_tick (s : Session α σ γ) (timer : TimerId) :
    Sound ⟨s, .tick timer, (s.tick timer).value, (s.tick timer).next⟩ := by
  rcases s.tick_cases timer with ⟨hm, ht, h⟩ | ⟨hr, h⟩
  · rw [h]; exact .tick hm ht
  · rw [h]; exact .refused hr

theorem sound_fire {s : Session α σ γ} {deadline : Duration} {timer : TimerId} {c : σ}
    (hpop : Scheduler.popDue s.scheduler deadline = some (timer, c)) :
    Sound ⟨s, .fire timer, ({ s with scheduler := c }.tick timer).value,
      ({ s with scheduler := c }.tick timer).next⟩ := by
  rcases Session.tick_cases { s with scheduler := c } timer with ⟨hm, ht, h⟩ | ⟨hr, h⟩
  · rw [h]; exact .fire hpop hm ht
  · rw [h]; exact .drop hpop hr

theorem sound_pause (s : Session α σ γ) : Sound ⟨s, .pause, none, s.pause.next⟩ := by
  unfold Session.pause
  split
  · rename_i h; exact .refused h
  · rename_i h; exact .pause (by simpa using h)

theorem sound_randomStart {s : Session α σ γ} {r : Reply Unit α σ γ}
    (h : s.randomStart = .ok r) : Sound ⟨s, .randomStart, none, r.next⟩ := by
  obtain ⟨d, hd, hr⟩ := bind_eq_ok_iff.mp h
  cases hr
  exact .randomStart hd

/-- A setting that is accepted takes effect, any other one changes nothing. -/
theorem sound_withSettings {s : Session α σ γ} {m : Move α}
    {settings : Except (InvalidSetting α) (Config α)} (note : Note α)
    (h : m.settings s.config = some settings) :
    Sound ⟨s, m, none, (s.withSettings settings note).next⟩ := by
  cases settings with
  | ok config => exact .set h
  | error e =>
    refine .refused ?_
    cases m with
    | setRule | setConstraint | setThreshold => exact ⟨e, h⟩
    | _ => cases h

end Turn

namespace Session

/-- A descent takes single steps and nothing else. -/
theorem linked_stepTurns {ω : Type} (observe : Observer ω α) :
    ∀ (limit : Nat) (w : ω) (s : Session α σ γ),
      Linked s (s.stepTurns (s.stepUntil observe limit w).value.steps)
        (s.stepUntil observe limit w).next
  | limit, w, s => by
    unfold stepUntil
    split
    · exact .nil s
    · split
      · exact .nil s
      · rename_i limit
        have hs : Turn.Sound ⟨s, .step, s.step.value, s.step.next⟩ := Turn.sound_step s
        rcases s.step_cases with ⟨_, h⟩ | ⟨_, h⟩
        · rw [h] at hs ⊢
          simp only [Reply.map] at hs ⊢
          split
          · rename_i heq
            simp only [stepTurns, h, Reply.map]
            exact .single hs
          · rename_i w' heq
            simp only [stepTurns, h, Reply.map]
            exact .cons hs (linked_stepTurns observe limit w' s.advance.next)
        · rw [h]; exact .nil s

/-- The clock fires timers and, unless it has fired as many as it may, moves to the deadline. -/
theorem linked_fireTurns (deadline : Duration) : ∀ (budget : Nat) (s : Session α σ γ),
    Linked s (s.fireTurns deadline budget) (fireUntil deadline budget s).next
  | 0, s => .nil s
  | budget + 1, s => by
    cases hpop : Scheduler.popDue s.scheduler deadline with
    | none =>
      simp only [fireTurns, fireUntil, hpop]
      exact .single (.settle hpop)
    | some fired =>
      obtain ⟨timer, c⟩ := fired
      simp only [fireTurns, fireUntil, hpop]
      exact .cons (Turn.sound_fire hpop) (linked_fireTurns deadline budget _)

theorem linked_turnsOf {s : Session α σ γ} {c : Command α} {r : Reply (Answer α) α σ γ}
    (h : s.perform c = .ok r) : Linked s (s.turnsOf c) r.next := by
  cases c with
  | step => cases h; exact .single (Turn.sound_step s)
  | run interval => cases h; exact .single (Turn.sound_run s interval)
  | tick timer => cases h; exact .single (Turn.sound_tick s timer)
  | pause => cases h; exact .single (Turn.sound_pause s)
  | reset => cases h; exact .single (.reset s)
  | randomStart =>
    obtain ⟨r', hr, rfl⟩ := perform_randomStart h
    simp only [turnsOf, hr]
    exact .single (Turn.sound_randomStart hr)
  | setRule rule => cases h; exact .single (Turn.sound_withSettings _ rfl)
  | setConstraint constraint => cases h; exact .single (Turn.sound_withSettings _ rfl)
  | setThreshold threshold => cases h; exact .single (Turn.sound_withSettings _ rfl)
  | advanceClock elapsed => cases h; exact linked_fireTurns _ _ s
  | descend limit stops =>
    cases h
    exact .cons (Turn.sound_pause s) (linked_stepTurns _ limit [] s.pause.next)

theorem events_turnsOf {s : Session α σ γ} {c : Command α} {r : Reply (Answer α) α σ γ}
    (h : s.perform c = .ok r) : (s.turnsOf c).filterMap Turn.event = r.value.events := by
  cases c with
  | step =>
    cases h
    cases hv : s.step.value <;> simp [turnsOf, Reply.map, Answer.events, hv]
  | tick timer =>
    cases h
    cases hv : (s.tick timer).value <;> simp [turnsOf, Reply.map, Answer.events, hv]
  | pause | reset => cases h; rfl
  | run | setRule | setConstraint | setThreshold =>
    cases h; simp [turnsOf, Reply.map]
  | randomStart =>
    obtain ⟨r', hr, rfl⟩ := perform_randomStart h
    simp [turnsOf, hr, Reply.map, Answer.events]
  | advanceClock elapsed => cases h; exact events_fireTurns _ _ s
  | descend limit stops =>
    cases h
    have := watched_stepUntil stops limit [] s.pause.next
    simp [turnsOf, Reply.map, Answer.events, descend, this]

/-- **A history is its turns.**  They are sound and lead from its first session to its last. -/
theorem linked_turns : ∀ {s : Session α σ γ} {cs : List (Command α)}
    {r : Reply (List (Answer α)) α σ γ}, s.play cs = .ok r → Linked s (s.turns cs) r.next
  | s, [], r, h => by cases h; exact .nil s
  | s, c :: cs, r, h => by
    obtain ⟨first, others, hfirst, hothers, rfl⟩ := play_cons_eq_ok_iff.mp h
    simp only [turns, hfirst]
    exact (linked_turnsOf hfirst).append (linked_turns hothers)

/-- The steps of the turns are the steps that the answers tell of. -/
theorem events_turns : ∀ {s : Session α σ γ} {cs : List (Command α)}
    {r : Reply (List (Answer α)) α σ γ}, s.play cs = .ok r →
      (s.turns cs).filterMap Turn.event = r.value.flatMap Answer.events
  | s, [], r, h => by cases h; rfl
  | s, c :: cs, r, h => by
    obtain ⟨first, others, hfirst, hothers, rfl⟩ := play_cons_eq_ok_iff.mp h
    simp [turns, hfirst, events_turnsOf hfirst, events_turns hothers]

end Session

/-! ## 4. What a turn does to the descent

Apart from the moves that begin a new descent, a turn either takes the next step, whoever asked
for it, or leaves everything but the settings, the timer and the mode alone. -/

namespace Session

omit [WordSource γ]

/-- The second session is the first one after the step `e`. -/
structure Takes (s : Session α σ γ) (e : Event α) (s' : Session α σ γ) : Prop where
  event : e = s.nextEvent
  onward : s.mode ≠ .converged
  converged : s'.mode = .converged ↔ e.converged = true
  objective : s'.objective = s.objective
  config : s'.config = s.config
  start : s'.start = s.start
  path : s'.path = s.path.push e.point
  readings : s'.readings = .ofEvent e

/-- The second session has accepted the same steps as the first one. -/
structure Stays (s s' : Session α σ γ) : Prop where
  converged : s'.mode = .converged ↔ s.mode = .converged
  objective : s'.objective = s.objective
  start : s'.start = s.start
  path : s'.path = s.path
  readings : s'.readings = s.readings

theorem takes_advance {s : Session α σ γ} (hm : s.mode ≠ .converged) :
    s.Takes s.nextEvent s.advance.next where
  event := rfl
  onward := hm
  converged := by cases he : s.nextEvent.converged <;> simp [mode_advance, he, hm]
  objective := objective_advance s
  config := config_advance s
  start := start_advance s
  path := path_advance s
  readings := readings_advance s

theorem takes_runStep {s : Session α σ γ} (hm : s.mode = .running) :
    s.Takes s.nextEvent s.runStep.next where
  event := rfl
  onward := by simp [hm]
  converged := by
    rcases runStep_cases hm with ⟨he, h⟩ | ⟨he, h⟩ <;> simp [h, he, wait, record, hm]
  objective := objective_runStep s
  config := config_runStep s
  start := start_runStep s
  path := path_runStep s
  readings := readings_runStep s

end Session

namespace Turn

/-- **A turn that takes a step takes the next one**, on a descent that is not over. -/
theorem Sound.takes {t : Turn α σ γ} (ht : t.Sound) {e : Event α} (he : t.event = some e) :
    t.before.Takes e t.after := by
  cases ht with
  | step ha => cases he; exact Session.takes_advance (Mode.acceptsManualStep_iff.mp ha).2
  | tick hm _ => cases he; exact Session.takes_runStep hm
  | @fire s _ c _ _ hm _ =>
    cases he
    have h : Session.Takes { s with scheduler := c } s.nextEvent _ := Session.takes_runStep hm
    exact ⟨rfl, h.onward, h.converged, h.objective, h.config, h.start, h.path, h.readings⟩
  | _ => cases he

/-- **A turn that takes no step** and begins no new descent leaves the descent as it is. -/
theorem Sound.stays {t : Turn α σ γ} (ht : t.Sound) (he : t.event = none)
    (hm : t.move.restarts = false) : t.before.Stays t.after := by
  cases ht with
  | step | tick | fire => cases he
  | reset | randomStart => cases hm
  | run ha _ =>
    have hconv := (Mode.acceptsManualStep_iff.mp ha).2
    exact ⟨by simp [hconv, Session.wait], rfl, rfl, rfl, rfl⟩
  | pause hrun => exact ⟨by simp [hrun], rfl, rfl, rfl, rfl⟩
  | _ => exact ⟨Iff.rfl, rfl, rfl, rfl, rfl⟩

/-- What is minimised never changes. -/
theorem Sound.objective {t : Turn α σ γ} (ht : t.Sound) :
    t.after.objective = t.before.objective := by
  cases ht with
  | step _ => exact Session.objective_advance _
  | tick _ _ => exact Session.objective_runStep _
  | fire _ _ _ => exact Session.objective_runStep _
  | _ => rfl

end Turn

end Sound

end Downhill

import Downhill.Proofs.Session.Reachable
import Downhill.Random.Xoshiro

/-! # One course, whoever drives it

A session can be stepped by hand, by a timer that its host reports, by its own clock or by a
descent, and between any two steps it can be paused, resumed and resettled.  None of this touches
the numbers.  `Objective.course` is the plain descent: from a point, one step after the other,
each with the settings given for it.  Between two restarts a session follows that course, with
the settings that were in force at each step; so two sessions with the same settings at each step
visit the same points.

What is done between two restarts enters here once, in `Linked.descends`.  `Session.Descends` keeps
of it the steps and their settings, and all else is proved by induction on it.
-/

namespace Downhill

variable {α σ γ : Type}

/-! ## 1. The plain descent -/

namespace Objective

variable [Scalar α]

/-- The step with number `k`, taken from `p` in the given settings. -/
def stepFrom (f : Objective α) (config : Config α) (k : Nat) (p : Point α) : Event α :=
  let trial := config.rule.propose f p
  let point := config.constraint.project trial
  let gradientNorm := (f.gradient point).norm
  { iteration := k
    trial := trial
    point := point
    objective := f.evaluate point
    gradientNorm := gradientNorm
    converged := decide (gradientNorm ≤ config.threshold) }

/-- The steps from `p`, numbered from `k` on, one for each of the settings. -/
def course (f : Objective α) : Nat → Point α → List (Config α) → List (Event α)
  | _, _, [] => []
  | k, p, config :: rest =>
    let e := f.stepFrom config k p
    e :: f.course (k + 1) e.point rest

/-- The step that follows `j` others from `p`, all in the same settings, the first of them with
number `k`. -/
def stepAfter (f : Objective α) (config : Config α) : Nat → Nat → Point α → Event α
  | 0, k, p => f.stepFrom config k p
  | j + 1, k, p => f.stepAfter config j (k + 1) (f.stepFrom config k p).point

/-- Fewer settings, fewer steps, but the same ones. -/
theorem course_prefix (f : Objective α) : ∀ {cs ds : List (Config α)} (k : Nat) (p : Point α),
    cs <+: ds → f.course k p cs <+: f.course k p ds
  | [], _, _, _, _ => List.nil_prefix
  | c :: cs, [], _, _, h => absurd h (by simp)
  | c :: cs, d :: ds, k, p, h => by
    obtain ⟨rfl, hcs⟩ := List.cons_prefix_cons.mp h
    exact List.cons_prefix_cons.mpr ⟨rfl, course_prefix f (k + 1) _ hcs⟩

end Objective

/-- The next step of a session is the plain one from its current point. -/
theorem Session.nextEvent_eq [Scalar α] (s : Session α σ γ) :
    s.nextEvent = s.objective.stepFrom s.config (s.iterationCount + 1) s.iterate := rfl

/-! ## 2. Histories without a restart -/

/-- The steps of some turns, each with the settings in force when it was taken. -/
def stepsOf (ts : List (Turn α σ γ)) : List (Config α × Event α) :=
  ts.filterMap fun t => t.event.map fun e => (t.before.config, e)

theorem stepsOf_cons_none {t : Turn α σ γ} (he : t.event = none) (ts : List (Turn α σ γ)) :
    stepsOf (t :: ts) = stepsOf ts := by
  simp [stepsOf, he]

theorem stepsOf_cons_some {t : Turn α σ γ} {e : Event α} (he : t.event = some e)
    (ts : List (Turn α σ γ)) : stepsOf (t :: ts) = (t.before.config, e) :: stepsOf ts := by
  simp [stepsOf, he]

theorem map_snd_stepsOf : ∀ ts : List (Turn α σ γ),
    (stepsOf ts).map Prod.snd = ts.filterMap Turn.event
  | [] => rfl
  | t :: ts => by
    cases he : t.event with
    | none => simp [stepsOf_cons_none he, he, map_snd_stepsOf ts]
    | some e => simp [stepsOf_cons_some he, he, map_snd_stepsOf ts]

section Descends

variable [Scalar α]

/-- The steps, each with the settings it was taken in, lead from the first session to the second.
Between them anything may be done that is neither a step nor a restart. -/
inductive Session.Descends :
    Session α σ γ → List (Config α × Event α) → Session α σ γ → Prop where
  | nil (s : Session α σ γ) : Descends s [] s
  | stay {s s' s'' : Session α σ γ} {steps : List (Config α × Event α)} (hs : s.Stays s')
      (h : Descends s' steps s'') : Descends s steps s''
  | take {s s' s'' : Session α σ γ} {e : Event α} {steps : List (Config α × Event α)}
      (hs : s.Takes e s') (h : Descends s' steps s'') : Descends s ((s.config, e) :: steps) s''

/-- Turns without a restart descend by the steps they take. -/
theorem Linked.descends [Scheduler σ] [WordSource γ] {s s' : Session α σ γ}
    {ts : List (Turn α σ γ)} (h : Linked s ts s') (hts : ∀ t ∈ ts, t.move.restarts = false) :
    s.Descends (stepsOf ts) s' := by
  induction h with
  | nil s => exact .nil s
  | @cons t ts s' ht _ ih =>
    have hrest := ih fun u hu => hts u (List.mem_cons_of_mem _ hu)
    cases he : t.event with
    | none =>
      rw [stepsOf_cons_none he]
      exact .stay (ht.stays he (hts t List.mem_cons_self)) hrest
    | some e =>
      rw [stepsOf_cons_some he]
      exact .take (ht.takes he) hrest

namespace Session.Descends

variable {s s' : Session α σ γ} {steps : List (Config α × Event α)}

/-- **The interactive machine refines the plain descent.**  It takes the steps of the course from
the current point, each with the settings in force, and lengthens the path by them. -/
theorem course (h : s.Descends steps s') :
    steps.map Prod.snd =
        s.objective.course (s.iterationCount + 1) s.iterate (steps.map Prod.fst) ∧
      s'.start = s.start ∧ s'.trajectory = s.trajectory ++ steps.map (·.2.point) := by
  induction h with
  | nil s => exact ⟨rfl, rfl, by simp⟩
  | stay hs _ ih =>
    obtain ⟨hcourse, hstart, hpath⟩ := ih
    rw [hcourse, hstart, hpath]
    simp only [iterationCount, iterate, trajectory, hs.readings, hs.objective, hs.path, hs.start,
      and_self]
  | @take s s' _ e _ hs _ ih =>
    obtain ⟨hcourse, hstart, hpath⟩ := ih
    rw [List.map_cons, List.map_cons, hcourse, hstart, hpath]
    refine ⟨?_, hs.start, ?_⟩
    · have hcount : s'.iterationCount = s.iterationCount + 1 := by
        simp [iterationCount, hs.readings, Readings.ofEvent, hs.event, nextEvent]
      have hpoint : s'.iterate = e.point := by simp [iterate, hs.readings, Readings.ofEvent]
      rw [Objective.course, hcount, hpoint, hs.objective, hs.event, nextEvent_eq]
    · simp [trajectory, hs.path]

/-- A descent that is over takes no step. -/
theorem eq_nil (h : s.Descends steps s') (hm : s.mode = .converged) : steps = [] := by
  induction h with
  | nil => rfl
  | stay hs _ ih => exact ih (hs.converged.mpr hm)
  | take hs _ _ => exact absurd hm hs.onward

/-- Only the last step can meet the threshold: it ends the descent. -/
theorem not_converged (h : s.Descends steps s') :
    ∀ e ∈ (steps.map Prod.snd).dropLast, e.converged = false := by
  induction h with
  | nil => intro e he; cases he
  | stay _ _ ih => exact ih
  | @take s s' _ e steps hs h ih =>
    intro e' he'
    cases steps with
    | nil => cases he'
    | cons p ps =>
      have hne : e.converged = false := by
        refine Bool.eq_false_iff.mpr fun hc => ?_
        cases h.eq_nil (hs.converged.mpr hc)
      rw [List.map_cons, List.dropLast_cons_of_ne_nil (by simp)] at he'
      rcases List.mem_cons.mp he' with rfl | he'
      · exact hne
      · exact ih e' he'

/-- The readings are those of the last step, if there was one. -/
theorem readings (h : s.Descends steps s') :
    s'.readings = (steps.map Prod.snd).getLast?.elim s.readings .ofEvent := by
  induction h with
  | nil => rfl
  | stay hs _ ih => rw [ih, hs.readings]
  | @take _ _ _ _ steps hs _ ih =>
    rw [List.map_cons, List.getLast?_cons, ih, hs.readings]
    cases (steps.map Prod.snd).getLast? <;> rfl

/-- A descent is over once a step has met the threshold. -/
theorem converged_iff (h : s.Descends steps s') :
    s'.mode = .converged ↔
      s.mode = .converged ∨ ∃ e ∈ steps.map Prod.snd, e.converged = true := by
  induction h with
  | nil => simp
  | stay hs _ ih => rw [ih, hs.converged]
  | take hs _ ih =>
    rw [ih, hs.converged]
    simp [hs.onward]

end Session.Descends

theorem Linked.not_converged [Scheduler σ] [WordSource γ] {s s' : Session α σ γ}
    {ts : List (Turn α σ γ)} (h : Linked s ts s') (hts : ∀ t ∈ ts, t.move.restarts = false) :
    ∀ e ∈ ((stepsOf ts).map Prod.snd).dropLast, e.converged = false :=
  (h.descends hts).not_converged

end Descends

/-! ## 3. Between two restarts -/

/-- The command begins a new descent. -/
def Command.restarts : Command α → Bool
  | .reset | .randomStart => true
  | _ => false

section Segment

variable [Scalar α] [Scheduler σ]

theorem restarts_stepTurns : ∀ (n : Nat) (s : Session α σ γ),
    ∀ t ∈ s.stepTurns n, t.move.restarts = false
  | 0, _, t, ht => absurd ht (by simp [Session.stepTurns])
  | n + 1, s, t, ht => by
    rcases List.mem_cons.mp ht with rfl | ht
    · rfl
    · exact restarts_stepTurns n _ t ht

theorem restarts_fireTurns (deadline : Duration) : ∀ (budget : Nat) (s : Session α σ γ),
    ∀ t ∈ s.fireTurns deadline budget, t.move.restarts = false
  | 0, _, t, ht => absurd ht (by simp [Session.fireTurns])
  | budget + 1, s, t, ht => by
    unfold Session.fireTurns at ht
    split at ht
    · rw [List.mem_singleton.mp ht]; rfl
    · rcases List.mem_cons.mp ht with rfl | ht
      · rfl
      · exact restarts_fireTurns deadline budget _ t ht

variable [WordSource γ]

/-- No command but a restart has a turn that is one. -/
theorem restarts_turnsOf {s : Session α σ γ} {c : Command α} (hc : c.restarts = false) :
    ∀ t ∈ s.turnsOf c, t.move.restarts = false := by
  cases c with
  | reset | randomStart => cases hc
  | advanceClock elapsed => exact restarts_fireTurns _ _ s
  | descend limit stops =>
    intro t ht
    rcases List.mem_cons.mp ht with rfl | ht
    · rfl
    · exact restarts_stepTurns _ _ t ht
  | _ =>
    intro t ht
    rw [List.mem_singleton.mp ht]
    rfl

theorem restarts_turns : ∀ {cs : List (Command α)} {s : Session α σ γ},
    (∀ c ∈ cs, c.restarts = false) → ∀ t ∈ s.turns cs, t.move.restarts = false
  | [], _, _, t, ht => absurd ht (by simp [Session.turns])
  | c :: cs, s, hcs, t, ht => by
    unfold Session.turns at ht
    split at ht
    · rcases List.mem_append.mp ht with ht | ht
      · exact restarts_turnsOf (hcs c List.mem_cons_self) t ht
      · exact restarts_turns (fun d hd => hcs d (List.mem_cons_of_mem _ hd)) t ht
    · cases ht

/-- What is done to a session from one restart on, up to the next one at most. -/
structure Segment (α σ γ : Type) [Scalar α] [Scheduler σ] [WordSource γ] where
  scheduler : σ
  first : Session α σ γ
  restarted : first.Restarted scheduler
  commands : List (Command α)
  onward : ∀ c ∈ commands, c.restarts = false
  reply : Reply (List (Answer α)) α σ γ
  played : first.play commands = .ok reply

namespace Segment

/-- What is done to a session from its opening on. -/
def ofOpened {scheduler : σ} {first : Session α σ γ} (h : first.Opened scheduler)
    (commands : List (Command α)) (onward : ∀ c ∈ commands, c.restarts = false)
    {reply : Reply (List (Answer α)) α σ γ} (played : first.play commands = .ok reply) :
    Segment α σ γ :=
  ⟨scheduler, first, .opened h, commands, onward, reply, played⟩

/-- The session at the end. -/
def last (S : Segment α σ γ) : Session α σ γ := S.reply.next

/-- The steps that the answers tell of, in order. -/
def events (S : Segment α σ γ) : List (Event α) := S.reply.value.flatMap Answer.events

/-- The steps, each with the settings in force when it was taken. -/
def steps (S : Segment α σ γ) : List (Config α × Event α) := stepsOf (S.first.turns S.commands)

/-- The settings in force at the steps. -/
def settings (S : Segment α σ γ) : List (Config α) := S.steps.map Prod.fst

theorem events_eq (S : Segment α σ γ) : S.events = S.steps.map Prod.snd := by
  rw [events, steps, map_snd_stepsOf, Session.events_turns S.played]

theorem descends (S : Segment α σ γ) : S.first.Descends S.steps S.last :=
  (Session.linked_turns S.played).descends (restarts_turns S.onward)

theorem course_eq (S : Segment α σ γ) :
    S.events = S.first.objective.course 1 S.first.start S.settings ∧
      S.last.start = S.first.start ∧
      S.last.trajectory = S.first.start :: S.events.map (·.point) := by
  have hstart := S.restarted.atStart
  obtain ⟨hcourse, hs, hpath⟩ := S.descends.course
  have hcount : S.first.iterationCount = 0 := by
    simp [Session.iterationCount, hstart.readings, Readings.atStart]
  have hpoint : S.first.iterate = S.first.start := by
    simp [Session.iterate, hstart.readings, Readings.atStart]
  have hfirst : S.first.trajectory = [S.first.start] := by
    simp [Session.trajectory, hstart.path]
  rw [hcount, hpoint] at hcourse
  rw [hfirst] at hpath
  refine ⟨by rw [S.events_eq]; exact hcourse, hs, ?_⟩
  rw [S.events_eq, List.map_map]
  exact hpath

/-- The readings at the end are those of the last step, or those of a start. -/
theorem readings_eq (S : Segment α σ γ) :
    S.last.readings = S.events.getLast?.elim (.atStart S.first.start) .ofEvent := by
  rw [S.events_eq, ← S.restarted.atStart.readings]
  exact S.descends.readings

/-- The descent is over exactly if one of its steps has met the threshold, -/
theorem converged_iff (S : Segment α σ γ) :
    S.last.mode = .converged ↔ ∃ e ∈ S.events, e.converged = true := by
  rw [S.events_eq, S.descends.converged_iff]
  simp [S.restarted.atStart.mode]

/-- and only the last one can have met it. -/
theorem not_converged (S : Segment α σ γ) : ∀ e ∈ S.events.dropLast, e.converged = false := by
  rw [S.events_eq]
  exact S.descends.not_converged

end Segment

/-- **Every segment follows the course**, and with it every other segment.

The steps that the answers of a segment tell of are those of the plain descent from its start,
each in the settings in force at that step; they are numbered from one, the path is the start
followed by their points, and none but the last has met the threshold.  A segment of any other
session that has the same objective and start, and the same settings at the steps of this one,
begins with the same steps and the same path, whatever else is done in either. -/
theorem segment_follows_course (S : Segment α σ γ) :
    S.events = S.steps.map Prod.snd ∧
    S.events = S.first.objective.course 1 S.first.start S.settings ∧
    S.last.start = S.first.start ∧
    S.last.trajectory = S.first.start :: S.events.map (·.point) ∧
    (∀ e ∈ S.events.dropLast, e.converged = false) ∧
    ∀ {σ' γ' : Type} [Scheduler σ'] [WordSource γ'] (T : Segment α σ' γ'),
      T.first.objective = S.first.objective → T.first.start = S.first.start →
      S.settings <+: T.settings →
      S.events <+: T.events ∧ S.last.trajectory <+: T.last.trajectory := by
  obtain ⟨hcourse, hstart, hpath⟩ := S.course_eq
  refine ⟨S.events_eq, hcourse, hstart, hpath, ?_, ?_⟩
  · rw [S.events_eq]
    exact (Session.linked_turns S.played).not_converged (restarts_turns S.onward)
  · intro σ' γ' _ _ T hf hp hsettings
    obtain ⟨hcourse', _, hpath'⟩ := T.course_eq
    have hevents : S.events <+: T.events := by
      rw [hcourse, hcourse', hf, hp]
      exact S.first.objective.course_prefix 1 _ hsettings
    refine ⟨hevents, ?_⟩
    rw [hpath, hpath', hp]
    exact List.cons_prefix_cons.mpr ⟨rfl, hevents.map _⟩

end Segment

/-- Two steps, taken by hand. -/
def byHand : List (Command Float) := [.step, .step]

/-- Three steps of a run with an interruption and a late tick. -/
def byTicks : List (Command Float) :=
  [.run (.ofNanos 1000000), .tick ⟨0⟩, .pause, .tick ⟨1⟩, .run (.ofNanos 2000000), .tick ⟨2⟩,
    .tick ⟨3⟩]

/-- The steps taken by hand are the first ones of the run. -/
theorem course_by_hand_and_by_ticks :
    ∃ (S : Segment Float VirtualClock Xoshiro) (T : Segment Float HostTimers Xoshiro),
      S.commands = byHand ∧ T.commands = byTicks ∧
      T.first.objective = S.first.objective ∧ T.first.start = S.first.start ∧
      S.settings <+: T.settings ∧ S.events.length = 2 ∧ T.events.length = 3 ∧
      S.events <+: T.events ∧ S.last.trajectory <+: T.last.trajectory := by
  refine ⟨.ofOpened (Session.opened_bundled Config.made_default
        (rfl : Session.bundled .default ⟨25.0, 15.0⟩ (Xoshiro.ofSeed 7) = .ok _))
      byHand (by simp [byHand, Command.restarts]) rfl,
    .ofOpened (.new Config.made_default
        (rfl : Session.new QuadraticForm.bundled.objective .default ⟨25.0, 15.0⟩ HostTimers.new
          (Xoshiro.ofSeed 7) = .ok _))
      byTicks (by simp [byTicks, Command.restarts]) rfl,
    rfl, rfl, rfl, rfl, ?_, ?_, ?_, (segment_follows_course _).2.2.2.2.2 _ rfl rfl ?_⟩
  all_goals decide +kernel

end Downhill

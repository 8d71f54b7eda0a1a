import Downhill.Proofs.Session.Coherence
import Downhill.Proofs.Session.Course
import Downhill.Proofs.Session.Refusals
import Downhill.Proofs.Time.Pending

/-! # A descent that has converged is over

Once the threshold is met, a session takes no step and begins no run until it is restarted, whatever
else is asked of it.  Settings can still be replaced, a smaller threshold or another constraint
included, and the clock can still move, on which timers left over from the ticks of a host may fire.
None of this touches the descent.

* `Session.Rests`: what may change, the settings and the scheduler, and that no timer is handed out.
* `Linked.rests`: turns that are no restart leave a session that has converged at rest.
* `Session.restingAnswer`: what it answers, command by command.
* `Session.converged_until_restarted`: both, for every history.
-/

namespace Downhill

open NumberingScheduler

variable {α σ γ : Type}

/-! ## 1. What is left alone -/

namespace Session

/-- The second session is the first one with other settings and another state of its scheduler,
which has not handed out a timer. -/
structure Rests [Scheduler σ] [NumberingScheduler σ] (s s' : Session α σ γ) : Prop where
  unchanged : s' = { s with config := s'.config, scheduler := s'.scheduler }
  issued : issued s'.scheduler = issued s.scheduler

namespace Rests

variable [Scheduler σ] [NumberingScheduler σ] {s s' s'' : Session α σ γ}

theorem refl (s : Session α σ γ) : s.Rests s := ⟨rfl, rfl⟩

theorem trans (h : s.Rests s') (h' : s'.Rests s'') : s.Rests s'' := by
  refine ⟨?_, h'.issued.trans h.issued⟩
  rw [h'.unchanged, h.unchanged]

theorem mode (h : s.Rests s') : s'.mode = s.mode := by rw [h.unchanged]

theorem pendingTimer (h : s.Rests s') : s'.pendingTimer = s.pendingTimer := by
  rw [h.unchanged]; rfl

end Rests

end Session

/-! ## 2. Turns -/

section Turns

variable [Scalar α] [Scheduler σ] [NumberingScheduler σ] [WordSource γ]

/-- A turn that is no restart takes no step from a session that has converged, and leaves it at
rest. -/
theorem Turn.Sound.rests {t : Turn α σ γ} (ht : t.Sound) (hm : t.before.mode = .converged)
    (hr : t.move.restarts = false) : t.event = none ∧ t.before.Rests t.after := by
  cases ht with
  | refused _ => exact ⟨rfl, .refl _⟩
  | step ha | run ha _ => exact absurd hm (Mode.acceptsManualStep_iff.mp ha).2
  | tick hrun _ | pause hrun | fire _ hrun _ => cases hm.symm.trans hrun
  | reset | randomStart => cases hr
  | set _ => exact ⟨rfl, rfl, rfl⟩
  | drop hpop _ => exact ⟨rfl, rfl, issued_popDue hpop⟩
  | settle _ => exact ⟨rfl, rfl, issued_advanceTo _ _⟩

/-- **Turns that are no restart leave a session that has converged at rest.** -/
theorem Linked.rests {s s' : Session α σ γ} {ts : List (Turn α σ γ)} (h : Linked s ts s')
    (hts : ∀ t ∈ ts, t.move.restarts = false) (hm : s.mode = .converged) :
    ts.filterMap Turn.event = [] ∧ s.Rests s' := by
  induction h with
  | nil s => exact ⟨rfl, .refl s⟩
  | @cons t ts s' ht _ ih =>
    obtain ⟨hevent, hrests⟩ := ht.rests hm (hts t List.mem_cons_self)
    obtain ⟨hevents, hrest⟩ :=
      ih (fun u hu => hts u (List.mem_cons_of_mem _ hu)) (hrests.mode.trans hm)
    exact ⟨by rw [List.filterMap_cons_none hevent, hevents], hrests.trans hrest⟩

end Turns

/-! ## 3. Answers -/

namespace Session

section Answers

variable [Scalar α]

/-- Where a session that has converged stands, as a descent of no steps. -/
def restingSolution (s : Session α σ γ) : Solution α :=
  ⟨.converged, s.iterate, s.functionValue, s.gradientNorm, 0⟩

/-- What a session that has converged answers to a command that is no restart.  Values are checked
as ever. -/
def restingAnswer (s : Session α σ γ) : Command α → Answer α
  | .step | .tick _ => .step none
  | .advanceClock _ => .advanced []
  | .descend _ _ => .descended s.restingSolution []
  | c => .ofSetting c.check

theorem Rests.restingAnswer [Scheduler σ] [NumberingScheduler σ] {s s' : Session α σ γ}
    (h : s.Rests s') : s'.restingAnswer = s.restingAnswer := by
  rw [h.unchanged]; rfl

/-- A descent takes no step and shows its observer nothing. -/
theorem descend_of_converged [Scheduler σ] {ω : Type} {s : Session α σ γ}
    (hm : s.mode = .converged) (observe : Observer ω α) (limit : Nat) (w : ω) :
    (s.descend observe limit w).value = (s.restingSolution, w) := by
  have hpause : s.pause.next = s := by simp [pause, hm]
  simp only [descend, hpause, stepUntil_of_converged hm]
  rfl

variable [Scheduler σ] [WordSource γ]

/-- Every command but a random start is carried out. -/
theorem perform_ok {c : Command α} (hc : c.restarts = false) (s : Session α σ γ) :
    ∃ r, s.perform c = .ok r := by
  cases c with
  | randomStart => cases hc
  | _ => exact ⟨_, rfl⟩

theorem value_of_converged [NumberingScheduler σ] {s : Session α σ γ} (hm : s.mode = .converged)
    {c : Command α} (hc : c.restarts = false) {r : Reply (Answer α) α σ γ}
    (h : s.perform c = .ok r) : r.value = s.restingAnswer c := by
  cases c with
  | reset | randomStart => cases hc
  | step => cases h; simp [step, hm, Mode.acceptsManualStep, Reply.map, restingAnswer]
  | tick timer => cases h; simp [tick, hm, Reply.map, restingAnswer]
  | pause => cases h; rfl
  | run interval => cases h; exact congrArg Answer.ofSetting (s.value_run interval)
  | setRule rule => cases h; exact congrArg Answer.ofSetting (s.value_withSettings _ _)
  | setConstraint constraint =>
    cases h; exact congrArg Answer.ofSetting (s.value_withSettings _ _)
  | setThreshold threshold =>
    cases h; exact congrArg Answer.ofSetting (s.value_withSettings _ _)
  | advanceClock elapsed =>
    have hevents := ((linked_turnsOf h).rests (restarts_turnsOf hc) hm).1
    rw [events_turnsOf h] at hevents
    cases h
    exact congrArg Answer.advanced hevents
  | descend limit stops =>
    cases h
    simp [Reply.map, descend_of_converged hm, restingAnswer]

/-- A history without a restart is carried out, and a session that has converged answers it at
rest. -/
theorem play_of_converged [NumberingScheduler σ] : ∀ {cs : List (Command α)} {s : Session α σ γ},
    (∀ c ∈ cs, c.restarts = false) → s.mode = .converged →
      ∃ r, s.play cs = .ok r ∧ r.value = cs.map s.restingAnswer
  | [], _, _, _ => ⟨_, rfl, rfl⟩
  | c :: cs, s, hcs, hm => by
    have hc : c.restarts = false := hcs c List.mem_cons_self
    obtain ⟨first, hfirst⟩ := perform_ok hc s
    have hrests := ((linked_turnsOf hfirst).rests (restarts_turnsOf hc) hm).2
    obtain ⟨others, hothers, hvalue⟩ :=
      play_of_converged (fun d hd => hcs d (List.mem_cons_of_mem _ hd)) (hrests.mode.trans hm)
    rw [hrests.restingAnswer] at hvalue
    refine ⟨_, play_cons_eq_ok_iff.mpr ⟨first, others, hfirst, hothers, rfl⟩, ?_⟩
    simp [value_of_converged hm hc hfirst, hvalue]

/-- The mode after a restart is the one at a start. -/
theorem mode_of_restarts {s : Session α σ γ} {c : Command α} (hc : c.restarts = true)
    {r : Reply (Answer α) α σ γ} (h : s.perform c = .ok r) : r.next.mode = .idle := by
  cases c with
  | reset => cases h; rfl
  | randomStart =>
    obtain ⟨r', hr, rfl⟩ := perform_randomStart h
    obtain ⟨d, -, heq⟩ := bind_eq_ok_iff.mp hr
    cases heq
    rfl
  | _ => cases hc

end Answers

/-- **A descent that has converged is over until it is restarted.**

Let a session over a scheduler that numbers its timers have converged after some history.  Every
further history without a restart is carried out, with the answers of a session at rest: no step is
taken, and a descent ends at once as converged, whatever its limit and its observer.  Afterwards the
session is as it was, but for its settings and its scheduler; it has converged and waits for no
timer, and none was handed out.  Of all commands, exactly the restarts lead out of this mode. -/
theorem converged_until_restarted [Scalar α] [Scheduler σ] [NumberingScheduler σ] [WordSource γ]
    {scheduler : σ} {s : Session α σ γ} (hs : Reachable scheduler s) (hm : s.mode = .converged) :
    (∀ cs : List (Command α), (∀ c ∈ cs, c.restarts = false) →
      ∃ r, s.play cs = .ok r ∧
        r.value = cs.map s.restingAnswer ∧
        r.value.flatMap Answer.events = [] ∧
        (∀ {ω : Type} (observe : Observer ω α) (limit : Nat) (w : ω),
          (r.next.descend observe limit w).value = (s.restingSolution, w)) ∧
        r.next = { s with config := r.next.config, scheduler := r.next.scheduler } ∧
        r.next.mode = .converged ∧
        r.next.pendingTimer = none ∧
        issued r.next.scheduler = issued s.scheduler) ∧
    ∀ (c : Command α) (r : Reply (Answer α) α σ γ), s.perform c = .ok r →
      (r.next.mode = .converged ↔ c.restarts = false) := by
  constructor
  · intro cs hcs
    obtain ⟨r, hr, hvalue⟩ := play_of_converged hcs hm
    obtain ⟨hevents, hrests⟩ := (linked_turns hr).rests (restarts_turns hcs) hm
    have hmode : r.next.mode = .converged := hrests.mode.trans hm
    have htimer : s.pendingTimer = none := hs.coherent.timer_eq_none (by simp [hm])
    refine ⟨r, hr, hvalue, ?_, ?_, hrests.unchanged, hmode, hrests.pendingTimer.trans htimer,
      hrests.issued⟩
    · rw [← events_turns hr, hevents]
    · intro ω observe limit w
      rw [descend_of_converged hmode, hrests.unchanged]
      rfl
  · intro c r hr
    cases hc : c.restarts with
    | false =>
      have hrests := ((linked_turnsOf hr).rests (restarts_turnsOf hc) hm).2
      exact iff_of_true (hrests.mode.trans hm) rfl
    | true => simp [mode_of_restarts hc hr]

/-- Two ticks that a host reports, the second one for the full Newton step that ends the run.  Both
timers stay behind in the clock. -/
def newtonByHost : List (Command Float) :=
  [.run (.ofNanos 1000000), .tick ⟨0⟩, .setRule (.dampedNewton 1.0), .tick ⟨1⟩]

/-- Everything that can be asked of a session but a restart. -/
def allButRestarts : List (Command Float) :=
  [.step, .run (.ofNanos 1000000), .run .zero, .tick ⟨1⟩, .pause, .setThreshold 1e-9,
    .setRule (.gradientDescent 1.0), .setConstraint (.disk 1.0), .advanceClock (.ofNanos 5000000),
    .descend 3 fun _ => true]

/-- The bundled session stays converged, although two stray timers fire. -/
theorem converged_among_strays :
    ∃ (s₀ : Session Float VirtualClock Xoshiro)
      (r₀ : Reply (List (Answer Float)) Float VirtualClock Xoshiro),
      bundled .default ⟨25.0, 15.0⟩ (Xoshiro.ofSeed 7) = .ok s₀ ∧
      s₀.play newtonByHost = .ok r₀ ∧ r₀.next.mode = .converged ∧
      r₀.next.scheduler.pending.map Timer.id = [⟨0⟩, ⟨1⟩] ∧
      ∃ r, r₀.next.play allButRestarts = .ok r ∧ r.value.flatMap Answer.events = [] ∧
        r.next.mode = .converged ∧ r.next.pendingTimer = none ∧
        r.next.scheduler.issued = r₀.next.scheduler.issued := by
  have honward : ∀ c ∈ allButRestarts, c.restarts = false := by
    simp [allButRestarts, Command.restarts]
  refine exists_played (opened_bundled Config.made_default)
    (fun _ r => r.next.mode = .converged ∧ r.next.scheduler.pending.map Timer.id = [⟨0⟩, ⟨1⟩])
    rfl rfl (by decide +kernel) ?_
  rintro s₀ r₀ hs hr ⟨hm, hpending⟩
  obtain ⟨r, hr, -, hevents, -, -, hmode, htimer, hissued⟩ :=
    (converged_until_restarted ⟨s₀, _, r₀, hs, hr, rfl⟩ hm).1 allButRestarts honward
  exact ⟨hm, hpending, r, hr, hevents, hmode, htimer, hissued⟩

end Session

end Downhill

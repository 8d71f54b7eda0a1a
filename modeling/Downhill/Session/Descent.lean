import Downhill.Session.Control

/-! # Descending to an end

A descent takes single steps until the session has converged, a number of steps has been taken,
or an observer says stop.  The observer is shown every event once and keeps a state of its own
between them.  The step on which it stops the descent has been taken.
-/

namespace Downhill

/-- How a descent ended: the threshold has been met, the allowed number of steps has been taken, or
the observer stopped it. -/
inductive Ending where
  | converged
  | maxSteps
  | stoppedByObserver
deriving DecidableEq, Repr

/-- Where a descent ended and how: the point reached, the value of the objective there, the gradient
norm found by the last step, and how many steps this descent took. -/
structure Solution (α : Type) where
  ending : Ending
  point : Point α
  objective : α
  gradientNorm : α
  steps : Nat
deriving DecidableEq, Repr

/-- An observer with states `ω`: the state after an event, and whether to stop there. -/
abbrev Observer (ω α : Type) := ω → Event α → ω × Bool

namespace Session

variable {α σ γ ω : Type} [Scalar α] [Scheduler σ]

/-- How the steps ended, how many were taken, and the state of the observer after them. -/
structure Course (ω : Type) where
  ending : Ending
  steps : Nat
  watched : ω

/-- Takes at most the given number of steps under an observer. -/
def stepUntil (observe : Observer ω α) : Nat → ω → Session α σ γ → Reply (Course ω) α σ γ
  | limit, w, s =>
    if s.mode = .converged then ⟨⟨.converged, 0, w⟩, s, []⟩
    else match limit with
      | 0 => ⟨⟨.maxSteps, 0, w⟩, s, []⟩
      | limit + 1 =>
        match s.step with
        | ⟨none, next, notes⟩ => ⟨⟨.maxSteps, 0, w⟩, next, notes⟩
        | ⟨some e, next, notes⟩ =>
          match observe w e with
          | (w, true) => ⟨⟨.stoppedByObserver, 1, w⟩, next, notes⟩
          | (w, false) =>
            let rest := stepUntil observe limit w next
            ⟨⟨rest.value.ending, rest.value.steps + 1, rest.value.watched⟩, rest.next,
              notes ++ rest.notes⟩

/-- Descends with an observer in the given state.  A run is paused first.  The answer is the
solution and the last state of the observer. -/
def descend (observe : Observer ω α) (limit : Nat) (w : ω) (s : Session α σ γ) :
    Reply (Solution α × ω) α σ γ :=
  let paused := s.pause
  let course := stepUntil observe limit w paused.next
  let last := course.next
  ⟨(⟨course.value.ending, last.iterate, last.functionValue, last.gradientNorm,
      course.value.steps⟩, course.value.watched), last, paused.notes ++ course.notes⟩

/-! ## What a descent does first -/

variable {observe : Observer ω α} {s : Session α σ γ}

/-- On a descent that is over no step is taken. -/
theorem stepUntil_of_converged (hm : s.mode = .converged) (limit : Nat) (w : ω) :
    s.stepUntil observe limit w = ⟨⟨.converged, 0, w⟩, s, []⟩ := by
  unfold stepUntil
  exact if_pos hm

/-- Where no step is allowed none is taken. -/
theorem stepUntil_zero (hm : s.mode ≠ .converged) (w : ω) :
    s.stepUntil observe 0 w = ⟨⟨.maxSteps, 0, w⟩, s, []⟩ := by
  unfold stepUntil
  exact if_neg hm

/-- A step on which the observer stops is the last one. -/
theorem stepUntil_stop (hm : s.mode.acceptsManualStep = true) {w : ω}
    (hw : (observe w s.nextEvent).2 = true) (limit : Nat) :
    s.stepUntil observe (limit + 1) w =
      ⟨⟨.stoppedByObserver, 1, (observe w s.nextEvent).1⟩, s.advance.next, s.advance.notes⟩ := by
  have hstop : observe w s.nextEvent = ((observe w s.nextEvent).1, true) := by rw [← hw]
  rw [stepUntil, if_neg (Mode.acceptsManualStep_iff.mp hm).2, step_eq hm]
  dsimp only
  rw [hstop]

/-- A step that the observer lets pass is followed by the other ones. -/
theorem stepUntil_succ (hm : s.mode.acceptsManualStep = true) {w : ω}
    (hw : (observe w s.nextEvent).2 = false) (limit : Nat) :
    s.stepUntil observe (limit + 1) w =
      let rest := s.advance.next.stepUntil observe limit (observe w s.nextEvent).1
      ⟨⟨rest.value.ending, rest.value.steps + 1, rest.value.watched⟩, rest.next,
        s.advance.notes ++ rest.notes⟩ := by
  have hpass : observe w s.nextEvent = ((observe w s.nextEvent).1, false) := by rw [← hw]
  rw [stepUntil, if_neg (Mode.acceptsManualStep_iff.mp hm).2, step_eq hm]
  dsimp only
  rw [hpass]

end Session

end Downhill

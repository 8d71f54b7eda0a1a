import Downhill.Session.Control
import Downhill.Session.Descent

/-! # Commands

Everything that can be done to a session, as data.  A list of commands is a history; playing it
gives the answers in order and the session they lead to.

A command may fail as a whole in one way only: a random start from a rectangle whose sides cannot
be drawn from.  A history ends there.
-/

namespace Downhill

/-- Something to do with a session.  A tick reports that a timer has fired.  A descent stops where
`stops` says so of the events of this descent, the latest first. -/
inductive Command (α : Type) where
  | step
  | run (interval : Duration)
  | tick (timer : TimerId)
  | pause
  | reset
  | randomStart
  | setRule (rule : StepRule α)
  | setConstraint (constraint : Constraint α)
  | setThreshold (threshold : α)
  | advanceClock (elapsed : Duration)
  | descend (limit : Nat) (stops : List (Event α) → Bool)

/-- What a command answers.  A setting is refused or there is nothing to say.  A single step or a
tick answers the step taken, if one was, and a clock movement the steps taken on the way.  A descent
answers how it ended and the events its observer was shown, the first one first. -/
inductive Answer (α : Type) where
  | done
  | refused (fault : InvalidSetting α)
  | step (event : Option (Event α))
  | advanced (events : List (Event α))
  | descended (solution : Solution α) (shown : List (Event α))
deriving DecidableEq, Repr

namespace Answer

variable {α : Type}

/-- The answer to a setting. -/
def ofSetting : Except (InvalidSetting α) Unit → Answer α
  | .ok () => .done
  | .error fault => .refused fault

end Answer

/-- The observer that remembers the events it is shown, the latest first, and stops where
`stops` says so of them. -/
def Observer.remembering {α : Type} (stops : List (Event α) → Bool) :
    Observer (List (Event α)) α :=
  fun seen e => (e :: seen, stops (e :: seen))

namespace Session

variable {α σ γ : Type} [Scalar α] [Scheduler σ] [WordSource γ]

/-- Carries out a command. -/
def perform (s : Session α σ γ) : Command α → Except InvalidRange (Reply (Answer α) α σ γ)
  | .step => .ok (s.step.map .step)
  | .run interval => .ok ((s.run interval).map .ofSetting)
  | .tick timer => .ok ((s.tick timer).map .step)
  | .pause => .ok (s.pause.map fun _ => .done)
  | .reset => .ok (s.reset.map fun _ => .done)
  | .randomStart => s.randomStart.map (Reply.map fun _ => .done)
  | .setRule rule => .ok ((s.setRule rule).map .ofSetting)
  | .setConstraint constraint => .ok ((s.setConstraint constraint).map .ofSetting)
  | .setThreshold threshold => .ok ((s.setThreshold threshold).map .ofSetting)
  | .advanceClock elapsed => .ok ((s.advanceClock elapsed).map .advanced)
  | .descend limit stops =>
    .ok ((s.descend (.remembering stops) limit []).map fun v => .descended v.1 v.2.reverse)

/-- The one command that may fail is carried out where a point can be drawn. -/
theorem perform_randomStart {s : Session α σ γ} {r : Reply (Answer α) α σ γ}
    (h : s.perform .randomStart = .ok r) :
    ∃ r', s.randomStart = .ok r' ∧ r = r'.map fun _ => .done := by
  unfold perform at h
  cases hr : s.randomStart with
  | error e => rw [hr] at h; cases h
  | ok r' => rw [hr] at h; cases h; exact ⟨r', rfl, rfl⟩

/-- Carries out a history.  The answers come in order. -/
def play (s : Session α σ γ) :
    List (Command α) → Except InvalidRange (Reply (List (Answer α)) α σ γ)
  | [] => .ok ⟨[], s, []⟩
  | command :: rest => do
    let first ← s.perform command
    let others ← first.next.play rest
    return ⟨first.value :: others.value, others.next, first.notes ++ others.notes⟩

/-- A history that is carried out is its first command and the others after it. -/
theorem play_cons_eq_ok_iff {s : Session α σ γ} {c : Command α} {cs : List (Command α)}
    {r : Reply (List (Answer α)) α σ γ} : s.play (c :: cs) = .ok r ↔
      ∃ first others, s.perform c = .ok first ∧ first.next.play cs = .ok others ∧
        r = ⟨first.value :: others.value, others.next, first.notes ++ others.notes⟩ := by
  constructor
  · intro h
    obtain ⟨first, hfirst, h⟩ := bind_eq_ok_iff.mp h
    obtain ⟨others, hothers, h⟩ := bind_eq_ok_iff.mp h
    cases h
    exact ⟨first, others, hfirst, hothers, rfl⟩
  · rintro ⟨first, others, hfirst, hothers, rfl⟩
    exact bind_eq_ok_iff.mpr ⟨first, hfirst, bind_eq_ok_iff.mpr ⟨others, hothers, rfl⟩⟩

end Session

end Downhill

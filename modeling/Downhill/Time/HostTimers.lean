import Downhill.Time.Duration

/-! # Timers and schedulers

A scheduler hands out one-shot timers.  Each timer has an id; a timer that was cancelled or has
fired is recognised by its id alone, so a late signal for it does no harm.

A scheduler may keep a clock of its own, in which case due timers are taken from it, or leave
time to its surroundings.  `HostTimers` does the latter.  It only hands out ids, counting up from
zero.  Whoever runs the session keeps the real timers and reports the id of the one that fired; the
clock stands at zero, and nothing is ever due.
-/

namespace Downhill

/-- The id of a timer, which is a number. -/
structure TimerId where
  raw : UInt64
deriving DecidableEq, Repr

/-- A type whose values hand out timers.

`schedule` starts a timer that is due after the delay.  `cancel` drops the timer with the given id
and ignores an id that is not pending.  `now` is the reading of the clock.  `popDue` takes out the
earliest timer due by the deadline, if there is one, with the clock moved to it, and `advanceTo`
moves the clock forward to the deadline without firing anything. -/
class Scheduler (σ : Type) where
  schedule : σ → Duration → TimerId × σ
  cancel : σ → TimerId → σ
  now : σ → Duration
  popDue : σ → Duration → Option (TimerId × σ)
  advanceTo : σ → Duration → σ

/-- A scheduler that only counts the timers it has handed out. -/
structure HostTimers where
  issued : Nat
deriving DecidableEq, Repr

namespace HostTimers

/-- No timer handed out yet. -/
def new : HostTimers := ⟨0⟩

instance : Scheduler HostTimers where
  schedule h _ := (⟨h.issued.toUInt64⟩, ⟨h.issued + 1⟩)
  cancel h _ := h
  now _ := .zero
  popDue _ _ := none
  advanceTo h _ := h

/-- No timer is known to be pending. -/
def isPending (_ : HostTimers) (_ : TimerId) : Bool := false

/-- Nothing comes due while time passes. -/
def advance (h : HostTimers) (_ : Duration) : List TimerId × HostTimers := ([], h)

end HostTimers

end Downhill

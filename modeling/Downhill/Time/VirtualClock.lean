import Downhill.Time.HostTimers

/-! # A clock that moves when told

The virtual clock holds its pending timers in the order in which they were scheduled.  Time moves
only when a caller takes out a due timer or advances the clock, and it never moves backward.
Timers fire in the order of their due times, equal ones in the order of their ids.

Ids count up from zero and are words of 64 bits; the clock itself counts without a bound.
-/

namespace Downhill

/-- A pending timer: the reading of the clock from which on it is due, and its id. -/
structure Timer where
  due : Duration
  id : TimerId
deriving DecidableEq, Repr

/-- Fires strictly earlier: by due time, then by id. -/
def Timer.firesBefore (t u : Timer) : Bool :=
  t.due < u.due || (t.due == u.due && t.id.raw < u.id.raw)

/-- A scheduler with a clock of its own: its reading, how many timers have been scheduled, and the
pending ones in scheduling order. -/
structure VirtualClock where
  now : Duration
  issued : Nat
  pending : List Timer
deriving DecidableEq, Repr

namespace VirtualClock

/-- The clock at zero, without timers. -/
def new : VirtualClock := ⟨.zero, 0, []⟩

/-- Starts a timer due after the delay, or at the end of time if that comes first. -/
def schedule (c : VirtualClock) (delay : Duration) : TimerId × VirtualClock :=
  let id : TimerId := ⟨c.issued.toUInt64⟩
  (id, { c with issued := c.issued + 1, pending := c.pending ++ [⟨c.now + delay, id⟩] })

/-- Drops the timer with the id, if it is pending. -/
def cancel (c : VirtualClock) (id : TimerId) : VirtualClock :=
  { c with pending := c.pending.filter (fun t => t.id != id) }

/-- Whether the timer with the id is pending. -/
def isPending (c : VirtualClock) (id : TimerId) : Bool := c.pending.any (fun t => t.id == id)

/-- The timer of a list that fires first, the earlier in the list if two are alike. -/
def earliest : List Timer → Option Timer
  | [] => none
  | t :: rest =>
    match earliest rest with
    | none => some t
    | some u => if u.firesBefore t then some u else some t

/-- Takes out the earliest timer due by the deadline.  The clock moves to its due time unless it
is later already. -/
def popDue (c : VirtualClock) (deadline : Duration) : Option (TimerId × VirtualClock) :=
  (earliest (c.pending.filter (fun t => t.due ≤ deadline))).map fun t =>
    (t.id, { c with now := c.now.later t.due, pending := c.pending.erase t })

/-- Moves the clock forward to the deadline, unless it is later already. -/
def advanceTo (c : VirtualClock) (deadline : Duration) : VirtualClock :=
  { c with now := c.now.later deadline }

instance : Scheduler VirtualClock where
  schedule := schedule
  cancel := cancel
  now := now
  popDue := popDue
  advanceTo := advanceTo

/-- Takes out timers due by the deadline, at most the given number of them. -/
def popAll (deadline : Duration) : Nat → VirtualClock → List TimerId × VirtualClock
  | 0, c => ([], c)
  | fuel + 1, c =>
    match c.popDue deadline with
    | none => ([], c)
    | some (id, c) =>
      let (ids, c) := popAll deadline fuel c
      (id :: ids, c)

/-- Advances the clock by a duration, at most to the end of time, and returns the timers that
came due in firing order. -/
def advance (c : VirtualClock) (elapsed : Duration) : List TimerId × VirtualClock :=
  let deadline := c.now + elapsed
  let (ids, c) := popAll deadline c.pending.length c
  (ids, c.advanceTo deadline)

end VirtualClock

end Downhill

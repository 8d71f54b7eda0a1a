import Downhill.Proofs.Session.Coherence
import Downhill.Proofs.Session.Course
import Downhill.Proofs.Time.Pending
import Mathlib.Data.ENat.Lattice

/-! # The cadence of a run

A session that runs on a virtual clock takes a step at the due time of its timer, and then at
every interval after it.  A movement of the clock ends such a run of ticks for one of three
reasons: the next tick is not due by the deadline, a step has met the threshold, or as many timers
have fired as one movement may fire.  At the end of time the first reason falls away: due times
saturate there, so that at the longest duration there is always another tick due.

* `Session.ahead`, `Session.stepsLeft`: the steps a session is about to take in its settings, and
  how many of them there are up to the one that meets the threshold.
* `beat`, `ticksDue`: the due times of a run, and how many of them a deadline reaches.
* `Reachable.punctual`: the timer a session waits for is not overdue.
* `Beats`: what one movement of the clock does to a session whose timer is the only pending one.
-/

namespace Downhill

variable {α σ γ : Type}

/-! ## 1. The steps ahead -/

namespace Session

section Ahead

variable [Scalar α]

/-- The step that the session takes after `j` others, if its settings stay as they are. -/
def ahead (s : Session α σ γ) (j : Nat) : Event α :=
  s.objective.stepAfter s.config j (s.iterationCount + 1) s.iterate

/-- How many steps are ahead of the session up to the first one that meets the threshold, that one
included. -/
noncomputable def stepsLeft (s : Session α σ γ) : ℕ∞ :=
  ⨅ j : ℕ, if (s.ahead j).converged then (j + 1 : ℕ∞) else ⊤

theorem ahead_zero (s : Session α σ γ) : s.ahead 0 = s.nextEvent := rfl

/-- A step leaves the others ahead. -/
theorem Takes.ahead {s s' : Session α σ γ} {e : Event α} (h : s.Takes e s') (j : Nat) :
    s'.ahead j = s.ahead (j + 1) := by
  have hcount : s'.iterationCount = s.iterationCount + 1 := by
    rw [iterationCount, h.readings, h.event]
    rfl
  have hpoint : s'.iterate = s.nextEvent.point := by
    rw [iterate, h.readings, h.event]
    rfl
  rw [Session.ahead, Session.ahead, h.objective, h.config, hcount, hpoint]
  rfl

theorem stepsLeft_eq_one {s : Session α σ γ} (h : s.nextEvent.converged = true) :
    s.stepsLeft = 1 := by
  refine le_antisymm (iInf_le_of_le 0 ?_) (le_iInf fun j => ?_)
  · rw [ahead_zero, h]
    simp
  · split
    · exact le_add_self
    · exact le_top

theorem stepsLeft_ne_zero (s : Session α σ γ) : s.stepsLeft ≠ 0 := by
  have hone : 1 ≤ s.stepsLeft := by
    refine le_iInf fun j => ?_
    split
    · exact le_add_self
    · exact le_top
  intro h
  rw [h] at hone
  exact absurd hone (by simp)

/-- A step that does not meet the threshold leaves one less. -/
theorem Takes.stepsLeft {s s' : Session α σ γ} {e : Event α} (h : s.Takes e s')
    (he : e.converged = false) : s.stepsLeft = s'.stepsLeft + 1 := by
  have hnext : (s.ahead 0).converged = false := by rw [ahead_zero, ← h.event, he]
  have hlater : ∀ j : ℕ, (if (s.ahead (j + 1)).converged then ((j + 1 : ℕ) + 1 : ℕ∞) else ⊤) =
      (if (s'.ahead j).converged then (j + 1 : ℕ∞) else ⊤) + 1 := by
    intro j
    rw [h.ahead]
    split
    · push_cast
      rfl
    · rfl
  rw [Session.stepsLeft, ← inf_iInf_nat_succ, hnext, Session.stepsLeft, ENat.iInf_add]
  simp only [hlater, Bool.false_eq_true, if_false, le_top, inf_of_le_right]

end Ahead

end Session

/-! ## 2. The beat -/

/-- The due time of a run after `j` intervals from `d`. -/
def beat (d interval : Duration) (j : Nat) : Duration := .ofNanos (d.nanos + j * interval.nanos)

/-- How many due times of a run the deadline reaches, the first one being `d`. -/
def ticksDue (deadline d interval : Duration) : ℕ∞ :=
  if deadline = .longest then ⊤
  else if deadline < d then 0
  else ((deadline.nanos - d.nanos) / interval.nanos + 1 : ℕ)

theorem beat_zero (d interval : Duration) : beat d interval 0 = d := by
  refine Duration.ext_nanos ?_
  rw [beat, Duration.ofNanos, Nat.zero_mul, Nat.add_zero]
  exact Nat.min_eq_left d.le_longest

theorem beat_add (d interval : Duration) (j : Nat) :
    beat (d + interval) interval j = beat d interval (j + 1) := by
  refine Duration.ext_nanos ?_
  have hsum := Duration.nanos_add d interval
  simp only [beat, Duration.ofNanos, hsum, Nat.succ_mul]
  generalize j * interval.nanos = n
  omega

theorem map_beat (d interval : Duration) (m : Nat) :
    (List.range (m + 1)).map (beat d interval) =
      d :: (List.range m).map (beat (d + interval) interval) := by
  rw [List.range_succ_eq_map, List.map_cons, beat_zero, List.map_map]
  exact congrArg (d :: ·) (List.map_congr_left fun j _ => (beat_add d interval j).symm)

theorem ticksDue_eq_zero {deadline d interval : Duration} (h : deadline < d) :
    ticksDue deadline d interval = 0 := by
  have hne : deadline ≠ .longest := by
    rintro rfl
    exact absurd d.le_longest (Nat.not_le_of_lt h)
  rw [ticksDue, if_neg hne, if_pos h]

/-- A due time that is reached is one of them, and the others are those of the run from the next
one. -/
theorem ticksDue_add {deadline d interval : Duration} (hd : d ≤ deadline)
    (hi : interval ≠ .zero) :
    ticksDue deadline d interval = ticksDue deadline (d + interval) interval + 1 := by
  have hpos : 0 < interval.nanos := Nat.pos_of_ne_zero fun h => hi (Duration.ext_nanos h)
  by_cases hlong : deadline = .longest
  · rw [ticksDue, ticksDue, if_pos hlong, if_pos hlong]
    rfl
  · have hlt : deadline.nanos < Duration.longest.nanos :=
      Nat.lt_of_le_of_ne deadline.le_longest fun h => hlong (Duration.ext_nanos h)
    have hsum := Duration.nanos_add d interval
    rw [Duration.le_iff] at hd
    have hnot : ¬ deadline < d := Nat.not_lt_of_le hd
    rw [ticksDue, ticksDue, if_neg hlong, if_neg hlong, if_neg hnot]
    by_cases hnext : deadline < d + interval
    · rw [Duration.lt_iff] at hnext
      rw [if_pos (Duration.lt_iff.mpr hnext), Nat.div_eq_of_lt (by omega)]
      rfl
    · have hle : d.nanos + interval.nanos ≤ deadline.nanos := by
        rw [Duration.lt_iff] at hnext
        omega
      have hdiv : (deadline.nanos - d.nanos) / interval.nanos =
          (deadline.nanos - (d + interval).nanos) / interval.nanos + 1 := by
        rw [Nat.div_eq_sub_div hpos (by omega), hsum,
          Nat.min_eq_left (Nat.le_of_lt (Nat.lt_of_le_of_lt hle hlt)), Nat.sub_sub]
      rw [if_neg hnext, hdiv]
      push_cast
      rfl

/-! ## 3. Timers are not overdue -/

namespace Session

/-- The timer that the session waits for is pending and not overdue. -/
def Punctual (s : Session α VirtualClock γ) : Prop :=
  ∀ id, s.timer = some id → ∃ t ∈ s.scheduler.pending, t.id = id ∧ s.scheduler.now ≤ t.due

namespace Punctual

variable {s : Session α VirtualClock γ} {c : VirtualClock} {deadline : Duration} {id : TimerId}

theorem of_none (h : s.timer = none) : s.Punctual := by
  intro id hid
  rw [h] at hid
  cases hid

theorem wait (s : Session α VirtualClock γ) : s.wait.Punctual := by
  intro id hid
  cases hid
  exact ⟨_, List.mem_append_right _ (List.mem_singleton.mpr rfl), rfl,
    s.scheduler.now.le_add s.interval⟩

/-- What fires first is due no later than the timer of the session. -/
theorem drop (h : s.Punctual) (hpop : s.scheduler.popDue deadline = some (id, c))
    (hne : s.timer ≠ some id) : Punctual { s with scheduler := c } := by
  obtain ⟨u, _, rfl, _, hleast, rfl⟩ := VirtualClock.popDue_cases hpop
  intro id hid
  obtain ⟨t, ht, rfl, hnow⟩ := h id hid
  have htu : t ≠ u := fun heq => hne (heq ▸ hid)
  refine ⟨t, (List.mem_erase_of_ne htu).mpr ht, rfl, ?_⟩
  rw [Duration.le_iff, Duration.nanos_later]
  exact Nat.max_le.mpr ⟨hnow, hleast t ht⟩

theorem settle (h : s.Punctual) (hpop : s.scheduler.popDue deadline = none) :
    Punctual { s with scheduler := s.scheduler.advanceTo deadline } := by
  intro id hid
  obtain ⟨t, ht, rfl, hnow⟩ := h id hid
  have hdue := VirtualClock.popDue_eq_none_iff.mp hpop t ht
  refine ⟨t, ht, rfl, ?_⟩
  rw [Duration.le_iff] at hnow ⊢
  rw [Duration.lt_iff] at hdue
  rw [show (s.scheduler.advanceTo deadline).now = s.scheduler.now.later deadline from rfl,
    Duration.nanos_later]
  omega

variable [Scalar α]

theorem runStep (hm : s.mode = .running) : s.runStep.next.Punctual := by
  rcases runStep_cases hm with ⟨_, heq⟩ | ⟨_, heq⟩
  · rw [heq]
    exact of_none rfl
  · rw [heq]
    exact wait _

theorem step (h : s.Punctual) : s.advance.next.Punctual := by
  cases he : s.nextEvent.converged with
  | true =>
    rw [s.advance_of_converged he]
    exact of_none rfl
  | false =>
    rw [s.advance_of_not_converged he]
    exact h

variable [WordSource γ]

theorem turn {t : Turn α VirtualClock γ} (ht : t.Sound) (hc : t.before.Coherent)
    (h : t.before.Punctual) : t.after.Punctual := by
  cases ht with
  | refused _ => exact h
  | step _ => exact h.step
  | run _ _ => exact wait _
  | tick hm _ => exact runStep hm
  | pause _ | reset _ | randomStart _ => exact of_none rfl
  | set _ => exact h
  | @fire s _ c _ _ hm _ => exact runStep (s := { s with scheduler := c }) hm
  | drop hpop hne =>
    exact h.drop hpop fun htimer => hne ⟨hc.running_of_timer htimer, htimer⟩
  | settle hpop => exact h.settle hpop

end Punctual

/-- **A session that waits is never late**, whatever clock it was opened over. -/
theorem Reachable.punctual [Scalar α] [WordSource γ] {scheduler : VirtualClock}
    {s : Session α VirtualClock γ} (h : Reachable scheduler s) : s.Punctual := by
  obtain ⟨s₀, cs, r, h₀, hr, rfl⟩ := h
  obtain ⟨hs, hc, _⟩ := h₀.fresh
  exact ((linked_turns hr).induct (P := fun _ s => s.Coherent ∧ s.Punctual)
    (fun _ _ ht h => ⟨h.1.turn ht, Punctual.turn ht h.1 h.2⟩) []
    ⟨hs.coherent hc, .of_none hs.timer⟩).2

end Session

/-! ## 4. From beat to beat -/

/-- The timers that came due in some turns, one after the other. -/
def firedIn (ts : List (Turn α σ γ)) : List TimerId :=
  ts.filterMap fun t =>
    match t.move with
    | .fire timer => some timer
    | _ => none

/-- The readings of the clock at which some turns took their steps.  A step does not move the
clock, so it can be read after the turn. -/
def steppedAt (ts : List (Turn α VirtualClock γ)) : List Duration :=
  (ts.filter fun t => t.event.isSome).map fun t => t.after.scheduler.now

namespace Session

/-- The session runs, and of all timers only its own is pending, due at `d`. -/
structure Awaits (s : Session α VirtualClock γ) (d : Duration) : Prop where
  mode : s.mode = .running
  timer : ∃ id, s.timer = some id ∧ s.scheduler.pending = [⟨d, id⟩]
  now : s.scheduler.now ≤ d
  interval : s.interval ≠ .zero

/-- The clock when the only timer, due at `d`, has fired. -/
def atDue (s : Session α VirtualClock γ) (d : Duration) : Session α VirtualClock γ :=
  { s with scheduler := { s.scheduler with now := d, pending := [] } }

/-- What becomes of a session that awaits a tick at `d` when its clock moves to the deadline and
fires at most `budget` timers on the way.

* `m` of them fire, by the first reason to stop, and each is answered with one of the steps ahead,
  taken on the beat; nothing else fires.
* If the last of these steps meets the threshold, nothing is pending after it.  Otherwise the
  session awaits the tick that follows.
* The clock reaches the deadline if there is a part of the budget left, and else stays at the last
  tick. -/
structure Beats [Scalar α] (deadline : Duration) (budget : Nat) (s : Session α VirtualClock γ)
    (d : Duration) (m : Nat) : Prop where
  count : (m : ℕ∞) = min (ticksDue deadline d s.interval) (min s.stepsLeft budget)
  fired : (firedIn (s.fireTurns deadline budget)).length = m
  events : (fireUntil deadline budget s).value = (List.range m).map s.ahead
  clocks : steppedAt (s.fireTurns deadline budget) = (List.range m).map (beat d s.interval)
  finished : (m : ℕ∞) = s.stepsLeft → (fireUntil deadline budget s).next.mode = .converged ∧
    (fireUntil deadline budget s).next.pendingTimer = none ∧
      (fireUntil deadline budget s).next.scheduler.pending = []
  onward : (m : ℕ∞) ≠ s.stepsLeft →
    (fireUntil deadline budget s).next.mode = .running ∧
      ∃ id, (fireUntil deadline budget s).next.pendingTimer = some id ∧
        (fireUntil deadline budget s).next.scheduler.pending = [⟨beat d s.interval m, id⟩]
  settled : m ≠ budget → (fireUntil deadline budget s).next.scheduler.now = deadline
  stopped : m = budget → (fireUntil deadline budget s).next.scheduler.now =
    if m = 0 then s.scheduler.now else beat d s.interval (m - 1)

/-! One tick.  The clock has moved to its due time and holds no timer when the session hears of it;
then the session has converged, or it awaits the next tick one interval later. -/

section Tick

variable {s : Session α VirtualClock γ} {d deadline : Duration}

theorem Awaits.fires (h : s.Awaits d) (hd : d ≤ deadline) :
    ∃ id, s.timer = some id ∧
      s.scheduler.popDue deadline = some (id, (s.atDue d).scheduler) := by
  obtain ⟨id, hid, hpending⟩ := h.timer
  refine ⟨id, hid, VirtualClock.popDue_eq_some_iff.mpr ⟨⟨d, id⟩, by simp [hpending], rfl, hd, ?_⟩⟩
  have hlater : s.scheduler.now.later d = d := if_pos h.now
  have hself : ({ due := d, id := id } : Timer).firesBefore ⟨d, id⟩ = false :=
    Timer.firesBefore_eq_false_iff.mpr (by simp)
  exact ⟨by simpa [hpending] using hself, by simp [atDue, hpending, hlater]⟩

variable [Scalar α]

/-- The tick that is due comes first, and the rest of the movement starts after it. -/
theorem Awaits.fireUntil (h : s.Awaits d) (hd : d ≤ deadline) (budget : Nat) :
    let next := (s.atDue d).runStep.next
    (Session.fireUntil deadline (budget + 1) s).value =
        s.nextEvent :: (Session.fireUntil deadline budget next).value ∧
      (Session.fireUntil deadline (budget + 1) s).next =
        (Session.fireUntil deadline budget next).next ∧
      ∃ id, s.fireTurns deadline (budget + 1) =
        ⟨s, .fire id, some s.nextEvent, next⟩ :: next.fireTurns deadline budget := by
  obtain ⟨id, hid, hpop⟩ := h.fires hd
  have htick : (s.atDue d).tick id = (s.atDue d).runStep.map some := by
    rcases (s.atDue d).tick_cases id with ⟨_, _, heq⟩ | ⟨hne, _⟩
    · exact heq
    · exact absurd ⟨h.mode, hid⟩ hne
  have hpop' : Scheduler.popDue s.scheduler deadline = some (id, (s.atDue d).scheduler) := hpop
  have hfired : ({ s with scheduler := (s.atDue d).scheduler } : Session α VirtualClock γ).tick id =
      (s.atDue d).runStep.map some := htick
  simp only [Session.fireUntil, fireTurns, hpop', hfired]
  exact ⟨rfl, rfl, id, rfl⟩

theorem Awaits.takes (h : s.Awaits d) : s.Takes s.nextEvent (s.atDue d).runStep.next := by
  have ht : (s.atDue d).Takes s.nextEvent (s.atDue d).runStep.next := takes_runStep h.mode
  exact ⟨rfl, ht.onward, ht.converged, ht.objective, ht.config, ht.start, ht.path, ht.readings⟩

/-- After a tick that does not meet the threshold the session awaits the next one. -/
theorem Awaits.next (h : s.Awaits d) (he : s.nextEvent.converged = false) :
    (s.atDue d).runStep.next.Awaits (d + s.interval) ∧
      (s.atDue d).runStep.next.scheduler.now = d ∧
      (s.atDue d).runStep.next.interval = s.interval := by
  rcases runStep_cases (s := s.atDue d) h.mode with ⟨he', _⟩ | ⟨_, heq⟩
  · exact absurd (he'.symm.trans he) (by simp)
  · rw [heq]
    exact ⟨⟨h.mode, ⟨_, rfl, rfl⟩, d.le_add s.interval, h.interval⟩, rfl, rfl⟩

/-- After one that does, it has converged and nothing is pending. -/
theorem Awaits.ended (h : s.Awaits d) (he : s.nextEvent.converged = true) :
    (s.atDue d).runStep.next.mode = .converged ∧
      (s.atDue d).runStep.next.pendingTimer = none ∧
      (s.atDue d).runStep.next.scheduler.pending = [] ∧
      (s.atDue d).runStep.next.scheduler.now = d := by
  rcases runStep_cases (s := s.atDue d) h.mode with ⟨_, heq⟩ | ⟨he', _⟩
  · rw [heq]
    exact ⟨rfl, rfl, rfl, rfl⟩
  · exact absurd (he'.symm.trans he) (by simp)

end Tick

/-! The movement: it has no budget, the next tick is not due, the next step is the last one, or
there is a tick and then the rest. -/

namespace Beats

variable [Scalar α] {s : Session α VirtualClock γ} {d deadline : Duration} {budget m : Nat}

theorem zero (h : s.Awaits d) : Beats deadline 0 s d 0 where
  count := by simp
  fired := rfl
  events := rfl
  clocks := rfl
  finished hm := absurd hm.symm s.stepsLeft_ne_zero
  onward _ := by
    obtain ⟨id, hid, hpending⟩ := h.timer
    exact ⟨h.mode, id, hid, by rw [beat_zero]; exact hpending⟩
  settled hm := absurd rfl hm
  stopped _ := rfl

theorem late (h : s.Awaits d) (hd : deadline < d) (hnow : s.scheduler.now ≤ deadline) :
    Beats deadline (budget + 1) s d 0 := by
  obtain ⟨id, hid, hpending⟩ := h.timer
  have hpop : Scheduler.popDue s.scheduler deadline = none :=
    VirtualClock.popDue_eq_none_iff.mpr (by simpa [hpending] using hd)
  have hfire : fireUntil deadline (budget + 1) s =
      ⟨[], { s with scheduler := Scheduler.advanceTo s.scheduler deadline }, []⟩ := by
    simp only [fireUntil, hpop]
  constructor
  · simp [ticksDue_eq_zero hd]
  · simp only [fireTurns, hpop]; rfl
  · rw [hfire]; rfl
  · simp only [fireTurns, hpop]; rfl
  · intro hm; exact absurd hm.symm s.stepsLeft_ne_zero
  · intro _
    rw [hfire, beat_zero]
    exact ⟨h.mode, id, hid, hpending⟩
  · intro _
    rw [hfire]
    exact if_pos hnow
  · intro hm; cases hm

theorem last (h : s.Awaits d) (hd : d ≤ deadline) (he : s.nextEvent.converged = true) :
    Beats deadline (budget + 1) s d 1 := by
  obtain ⟨hvalue, hnext, id, hturns⟩ := h.fireUntil hd budget
  obtain ⟨hmode, htimer, hpending, hclock⟩ := h.ended he
  have hleft : s.stepsLeft = 1 := stepsLeft_eq_one he
  have hcount : (1 : ℕ∞) ≤ ticksDue deadline d s.interval := by
    rw [ticksDue_add hd h.interval]
    exact le_add_self
  generalize (s.atDue d).runStep.next = next at *
  -- Nothing is pending any more, so the movement settles if it may go on at all.
  have hpop : Scheduler.popDue next.scheduler deadline = none :=
    VirtualClock.popDue_eq_none_iff.mpr (by simp [hpending])
  cases budget with
  | zero =>
    constructor
    · simpa [hleft] using hcount
    · rw [hturns]; rfl
    · rw [hvalue]; rfl
    · rw [hturns]; simp [steppedAt, fireTurns, hclock, beat_zero]
    · intro _; rw [hnext]; exact ⟨hmode, htimer, hpending⟩
    · intro hm; exact absurd hleft.symm hm
    · intro hm; exact absurd rfl hm
    · intro _; rw [hnext]; simpa [fireUntil, beat_zero] using hclock
  | succ budget =>
    have hfire : fireUntil deadline (budget + 1) next =
        ⟨[], { next with scheduler := Scheduler.advanceTo next.scheduler deadline }, []⟩ := by
      simp only [fireUntil, hpop]
    rw [hfire] at hvalue hnext
    constructor
    · rw [hleft, min_eq_left (a := (1 : ℕ∞)) (by push_cast; exact le_add_self)]
      simpa using hcount
    · rw [hturns]; simp [firedIn, fireTurns, hpop]
    · rw [hvalue]; rfl
    · rw [hturns]; simp [steppedAt, fireTurns, hpop, hclock, beat_zero]
    · intro _; rw [hnext]; exact ⟨hmode, htimer, hpending⟩
    · intro hm; exact absurd hleft.symm hm
    · intro _
      rw [hnext]
      exact if_pos (hclock ▸ hd)
    · intro hm; omega

theorem succ (h : s.Awaits d) (hd : d ≤ deadline) (he : s.nextEvent.converged = false)
    (hm : Beats deadline budget (s.atDue d).runStep.next (d + s.interval) m) :
    Beats deadline (budget + 1) s d (m + 1) := by
  obtain ⟨hvalue, hnext, id, hturns⟩ := h.fireUntil hd budget
  obtain ⟨_, hclock, hinterval⟩ := h.next he
  have htakes := h.takes
  have hleft := htakes.stepsLeft he
  generalize (s.atDue d).runStep.next = next at *
  have hsame : ((m + 1 : ℕ) : ℕ∞) = s.stepsLeft ↔ (m : ℕ∞) = next.stepsLeft := by
    rw [hleft]
    push_cast
    exact (ENat.add_left_injective_of_ne_top ENat.one_ne_top).eq_iff
  constructor
  · have hcount := hm.count
    rw [hinterval] at hcount
    rw [ticksDue_add hd h.interval, hleft]
    push_cast
    rw [min_add_add_right, min_add_add_right, ← hcount]
  · rw [hturns, ← hm.fired]
    rfl
  · rw [hvalue, hm.events, List.range_succ_eq_map, List.map_cons, List.map_map]
    exact congrArg _ (List.map_congr_left fun j _ => htakes.ahead j)
  · have hclocks := hm.clocks
    rw [hinterval] at hclocks
    rw [hturns, map_beat, ← hclocks]
    simp [steppedAt, hclock]
  · intro h
    rw [hnext]
    exact hm.finished (hsame.mp h)
  · intro h
    have honward := hm.onward (mt hsame.mpr h)
    rw [hinterval, beat_add] at honward
    rw [hnext]
    exact honward
  · intro h
    rw [hnext]
    exact hm.settled (by omega)
  · intro h
    rw [hnext, hm.stopped (by omega)]
    cases m with
    | zero => simp [hclock, beat_zero]
    | succ m => simp [← beat_add, hinterval]

end Beats

/-- **A session that awaits a tick keeps the beat**, for as long as nothing stops it. -/
theorem Awaits.beats [Scalar α] {deadline : Duration} : ∀ (budget : Nat)
    {s : Session α VirtualClock γ} {d : Duration}, s.Awaits d → s.scheduler.now ≤ deadline →
      ∃ m, Beats deadline budget s d m
  | 0, _, _, h, _ => ⟨0, .zero h⟩
  | budget + 1, s, d, h, hnow => by
    by_cases hd : d ≤ deadline
    · cases he : s.nextEvent.converged with
      | true => exact ⟨1, .last h hd he⟩
      | false =>
        obtain ⟨hnext, hclock, _⟩ := h.next he
        obtain ⟨m, hm⟩ := Awaits.beats budget hnext (hclock ▸ hd)
        exact ⟨m + 1, .succ h hd he hm⟩
    · exact ⟨0, .late h (Nat.lt_of_not_le hd) hnow⟩

/-- **A movement of the clock ticks on the beat until the first reason to stop.**

Let a session run, let its timer be the only pending one, due at `d`, and let its clock be moved.
Then `m` steps are taken, where `m` is the least of three numbers: of the due times that the
deadline reaches, of the steps up to the one that meets the threshold, and of the timers that one
movement may fire.  The steps are those ahead of the session, each is taken on the beat, and after
them the session has converged with nothing pending, or it runs and awaits the tick that follows.
The clock reaches the deadline, unless as many timers have fired as may: then it stays at the last
one. -/
theorem ticks_on_the_beat [Scalar α] [WordSource γ] {scheduler : VirtualClock}
    {s : Session α VirtualClock γ} (hs : Reachable scheduler s) (hm : s.mode = .running)
    {d : Duration} {id : TimerId} (hid : s.pendingTimer = some id)
    (hpending : s.scheduler.pending = [⟨d, id⟩]) (elapsed : Duration) :
    let deadline := s.scheduler.now + elapsed
    let moved := s.advanceClock elapsed
    ∃ m : Nat,
      (m : ℕ∞) = min (ticksDue deadline d s.interval) (min s.stepsLeft maxTicksPerAdvance) ∧
      moved.value = (List.range m).map s.ahead ∧
      steppedAt (s.turnsOf (.advanceClock elapsed)) = (List.range m).map (beat d s.interval) ∧
      ((m : ℕ∞) = s.stepsLeft →
        moved.next.mode = .converged ∧ moved.next.pendingTimer = none ∧
          moved.next.scheduler.pending = []) ∧
      ((m : ℕ∞) ≠ s.stepsLeft → moved.next.mode = .running ∧
        ∃ id, moved.next.pendingTimer = some id ∧
          moved.next.scheduler.pending = [⟨beat d s.interval m, id⟩]) ∧
      (m ≠ maxTicksPerAdvance → moved.next.scheduler.now = deadline) ∧
      (m = maxTicksPerAdvance → moved.next.scheduler.now = beat d s.interval (m - 1)) := by
  obtain ⟨t, ht, _, hnow⟩ := hs.punctual id hid
  rw [hpending] at ht
  cases List.mem_singleton.mp ht
  have hawaits : s.Awaits d := ⟨hm, ⟨id, hid, hpending⟩, hnow, hs.coherent.interval hm⟩
  obtain ⟨m, h⟩ := hawaits.beats maxTicksPerAdvance (s.scheduler.now.le_add elapsed)
  refine ⟨m, h.count, h.events, h.clocks, h.finished, h.onward, h.settled, fun hbudget => ?_⟩
  have hstopped := h.stopped hbudget
  rwa [if_neg (by rw [hbudget]; decide)] at hstopped

/-- The bundled session at the beginning of a run with a tick every millisecond, moved by two and
a half of them. -/
theorem two_ticks_on_the_beat :
    ∃ (s₀ : Session Float VirtualClock Xoshiro)
      (r : Reply (List (Answer Float)) Float VirtualClock Xoshiro),
      bundled .default ⟨25.0, 15.0⟩ (Xoshiro.ofSeed 7) = .ok s₀ ∧
      s₀.play [.run (.ofNanos 1000000)] = .ok r ∧ r.next.mode = .running ∧
      r.next.pendingTimer = some ⟨0⟩ ∧
      r.next.scheduler.pending = [⟨.ofNanos 1000000, ⟨0⟩⟩] ∧
      ticksDue (.ofNanos 2500000) (.ofNanos 1000000) (.ofNanos 1000000) = 2 ∧
      ∃ m : Nat, (m : ℕ∞) = min 2 (min r.next.stepsLeft maxTicksPerAdvance) ∧
        (r.next.advanceClock (.ofNanos 2500000)).value = (List.range m).map r.next.ahead := by
  have htwo : ticksDue (.ofNanos 2500000) (.ofNanos 1000000) (.ofNanos 1000000) = 2 := by
    rw [ticksDue, if_neg (by decide), if_neg (by decide)]
    rfl
  refine exists_played (opened_bundled Config.made_default)
    (fun _ r => r.next.mode = .running ∧ r.next.pendingTimer = some ⟨0⟩ ∧
      r.next.scheduler.pending = [⟨.ofNanos 1000000, ⟨0⟩⟩] ∧
      r.next.interval = .ofNanos 1000000 ∧
      r.next.scheduler.now + .ofNanos 2500000 = .ofNanos 2500000) rfl rfl (by decide +kernel) ?_
  rintro s₀ r hs hr ⟨hm, hid, hpending, hinterval, hdeadline⟩
  obtain ⟨m, hcount, hvalue, -⟩ := ticks_on_the_beat ⟨s₀, _, r, hs, hr, rfl⟩ hm hid hpending
    (.ofNanos 2500000)
  rw [hinterval, hdeadline, htwo] at hcount
  exact ⟨hm, hid, hpending, htwo, m, hcount, hvalue⟩

end Session

end Downhill

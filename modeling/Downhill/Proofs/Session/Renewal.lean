import Downhill.Proofs.Session.Attendance
import Downhill.Proofs.Time.Shift

/-! # A session that is reset is a new one

A reset leaves a session as if it had just been opened at its start, with the same settings, except
that the clock has moved and has handed out timers, and that the interval of the last run is still
there.  None of this is ever seen: whatever is done to both, the two sessions answer alike and stay
alike, with readings of the clock and numbers of timers at a constant distance.

* `Session.Shifted`: alike, apart from the clock and the timer at their distance, and from an
  interval that is not in use.
* `Shifted.runStep`, `Shifted.fireUntil`, `Shifted.stepUntil`: what the operations are made of keeps
  sessions alike.
* `Shifted.perform`, `Shifted.play`: so do commands and histories, where a tick is reported to
  the second session by the id at the distance.
* `Session.HasRoom`: what is needed for it.  No sum of a reading and a span of time is beyond the
  longest duration.
* `reset_gives_new_session`: a session that is reset and a new one, if the clock holds no timer but
  the one of the session.
* `agree_reset_of_no_strays`: which is so in every session that only its clock has made tick.
-/

namespace Downhill

variable {α β γ : Type} {lag offset : Nat}

/-! ## 1. Sessions that are alike -/

/-- The second session is the first one with a clock at a distance, the timer of that clock, and
any interval unless the session runs. -/
structure Session.Shifted (lag offset : Nat) (s s' : Session α VirtualClock γ) : Prop where
  clock : s.scheduler.Shifted lag offset s'.scheduler
  timer : Option.Rel (TimerId.Shifted offset) s.timer s'.timer
  interval : s.mode = .running → s'.interval = s.interval
  rest : s' = { s with scheduler := s'.scheduler, timer := s'.timer, interval := s'.interval }

/-- The same answer, and sessions that are alike. -/
structure Reply.Shifted (lag offset : Nat) (r r' : Reply β α VirtualClock γ) : Prop where
  value : r'.value = r.value
  next : r.next.Shifted lag offset r'.next

theorem Reply.Shifted.map {β' : Type} {r r' : Reply β α VirtualClock γ}
    {f : β → β'} (h : r.Shifted lag offset r') : (r.map f).Shifted lag offset (r'.map f) :=
  ⟨congrArg f h.value, h.next⟩

/-- Both fail for the same reason, or both answer alike. -/
inductive Reply.Agree (lag offset : Nat) : Except InvalidRange (Reply β α VirtualClock γ) →
    Except InvalidRange (Reply β α VirtualClock γ) → Prop where
  | error (e : InvalidRange) : Agree lag offset (.error e) (.error e)
  | ok {r r' : Reply β α VirtualClock γ} (h : r.Shifted lag offset r') :
      Agree lag offset (.ok r) (.ok r')

/-- If a timer is handed out on the way from one session to another, its due time is not cut off,
and there are ids left. -/
def Session.RoomUntil (s s' : Session α VirtualClock γ) : Prop :=
  s.scheduler.issued < s'.scheduler.issued →
    s'.scheduler.now.nanos + s'.interval.nanos ≤ Duration.longest.nanos ∧
      s'.scheduler.issued < UInt64.size

namespace Session.Shifted

variable {s s' : Session α VirtualClock γ}

theorem mode (h : s.Shifted lag offset s') : s'.mode = s.mode := by
  rw [h.rest]

theorem readouts (h : s.Shifted lag offset s') :
    s'.iterate = s.iterate ∧ s'.trajectory = s.trajectory ∧ s'.readings = s.readings ∧
      s'.functionValue = s.functionValue ∧ s'.config = s.config ∧ s'.start = s.start := by
  rw [h.rest]
  exact ⟨rfl, rfl, rfl, rfl, rfl, rfl⟩

theorem pendingTimer (h : s.Shifted lag offset s') :
    s'.pendingTimer = s.pendingTimer.map (TimerId.shift offset) := by
  have htimer := h.timer
  unfold Session.pendingTimer
  generalize s.timer = waiting at htimer ⊢
  generalize s'.timer = waiting' at htimer ⊢
  cases htimer with
  | none => rfl
  | some hid => exact congrArg some hid.eq_shift

/-- A session waits for a timer exactly if the other one waits for the timer at the distance. -/
theorem waits_iff (h : s.Shifted lag offset s') {id : TimerId} :
    s'.mode = .running ∧ s'.timer = some (id.shift offset) ↔
      s.mode = .running ∧ s.timer = some id := by
  have htimer : s'.timer = s.timer.map (TimerId.shift offset) := h.pendingTimer
  rw [h.mode, htimer, Option.map_eq_some_iff]
  simp [TimerId.shift_inj]

/-- Without their timers the clocks are still alike. -/
theorem released (h : s.Shifted lag offset s') :
    s.released.Shifted lag offset s'.released := by
  have htimer := h.timer
  unfold Session.released
  generalize s.timer = waiting at htimer ⊢
  generalize s'.timer = waiting' at htimer ⊢
  cases htimer with
  | none => exact h.clock
  | some hid => exact h.clock.cancel hid

/-! Sessions that are alike stay alike when the same is written into both. -/

theorem withScheduler (h : s.Shifted lag offset s') {c c' : VirtualClock}
    (hc : c.Shifted lag offset c') :
    Shifted lag offset { s with scheduler := c } { s' with scheduler := c' } :=
  ⟨hc, h.timer, h.interval, congrArg (fun x => { x with scheduler := c' }) h.rest⟩

theorem withoutTimer (h : s.Shifted lag offset s') :
    Shifted lag offset { s with timer := none } { s' with timer := none } :=
  ⟨h.clock, .none, h.interval, congrArg (fun x => { x with timer := none }) h.rest⟩

theorem withMode (h : s.Shifted lag offset s') {m : Mode} (hm : m ≠ .running) :
    Shifted lag offset { s with mode := m } { s' with mode := m } :=
  ⟨h.clock, h.timer, fun hrun => absurd hrun hm, congrArg (fun x => { x with mode := m }) h.rest⟩

theorem withConfig (h : s.Shifted lag offset s') (config : Config α) :
    Shifted lag offset { s with config := config } { s' with config := config } :=
  ⟨h.clock, h.timer, h.interval, congrArg (fun x => { x with config := config }) h.rest⟩

theorem withStart (h : s.Shifted lag offset s') (source : γ) (p : Point α) :
    Shifted lag offset { s with source := source, start := p }
      { s' with source := source, start := p } :=
  ⟨h.clock, h.timer, h.interval, congrArg (fun x => { x with source := source, start := p }) h.rest⟩

/-- The interval of a new run is the same for both. -/
theorem withRun (h : s.Shifted lag offset s') (interval : Duration) :
    Shifted lag offset { s with interval := interval, mode := .running }
      { s' with interval := interval, mode := .running } :=
  ⟨h.clock, h.timer, fun _ => rfl,
    congrArg (fun x => { x with interval := interval, mode := .running }) h.rest⟩

theorem record (h : s.Shifted lag offset s') (e : Event α) :
    (s.record e).Shifted lag offset (s'.record e) :=
  ⟨h.clock, h.timer, h.interval, congrArg (fun x => x.record e) h.rest⟩

theorem cancelTimer (h : s.Shifted lag offset s') :
    s.cancelTimer.Shifted lag offset s'.cancelTimer :=
  (h.withScheduler h.released).withoutTimer

theorem restartAt [Scalar α] (h : s.Shifted lag offset s') (p : Point α) :
    (s.restartAt p).Shifted lag offset (s'.restartAt p) :=
  ⟨h.clock, h.timer, fun hrun => absurd hrun (by decide : Mode.idle ≠ .running),
    congrArg (fun x => x.restartAt p) h.rest⟩

/-- Both sessions begin to wait, if they are to wait equally long. -/
theorem wait (h : s.Shifted lag offset s') (hinterval : s'.interval = s.interval)
    (hroom : s'.RoomUntil s'.wait) : s.wait.Shifted lag offset s'.wait := by
  obtain ⟨hfits, hids⟩ := hroom (Nat.lt_succ_self _)
  have hdue : s'.scheduler.now.nanos + s.interval.nanos ≤ Duration.longest.nanos :=
    hinterval ▸ hfits
  obtain ⟨hid, hclock⟩ :
      (s.scheduler.schedule s.interval).1.Shifted offset (s'.scheduler.schedule s'.interval).1 ∧
        (s.scheduler.schedule s.interval).2.Shifted lag offset
          (s'.scheduler.schedule s'.interval).2 := by
    rw [hinterval]
    exact h.clock.schedule hdue (Nat.lt_of_succ_lt hids)
  exact ⟨hclock, .some hid, h.interval, congrArg (fun x => { x with
    scheduler := (s'.scheduler.schedule s'.interval).2
    timer := some (s'.scheduler.schedule s'.interval).1 }) h.rest⟩

/-! ## 2. Operations -/

theorem run (h : s.Shifted lag offset s') (interval : Duration)
    (hroom : s'.RoomUntil (s'.run interval).next) :
    (s.run interval).Shifted lag offset (s'.run interval) := by
  unfold Session.run at hroom ⊢
  rw [h.mode] at hroom ⊢
  split
  · exact ⟨rfl, h⟩
  · rename_i hi
    rw [if_neg hi] at hroom
    split
    · rename_i ha
      rw [if_pos ha] at hroom
      exact ⟨rfl, (h.withRun interval).wait rfl hroom⟩
    · exact ⟨rfl, h⟩

theorem pause (h : s.Shifted lag offset s') : s.pause.Shifted lag offset s'.pause := by
  unfold Session.pause
  rw [h.mode]
  split
  · exact ⟨rfl, h⟩
  · exact ⟨rfl, h.cancelTimer.withMode (by decide)⟩

section Steps

variable [Scalar α]

theorem nextEvent (h : s.Shifted lag offset s') : s'.nextEvent = s.nextEvent := by
  rw [h.rest]
  rfl

theorem advance (h : s.Shifted lag offset s') : s.advance.Shifted lag offset s'.advance := by
  refine ⟨h.nextEvent, ?_⟩
  have he := h.nextEvent
  have hrecord := h.record s.nextEvent
  cases hc : s.nextEvent.converged with
  | true =>
    rw [s.advance_of_converged hc, s'.advance_of_converged (he ▸ hc), he]
    exact hrecord.cancelTimer.withMode (by decide)
  | false =>
    rw [s.advance_of_not_converged hc, s'.advance_of_not_converged (he ▸ hc), he]
    exact hrecord

theorem step (h : s.Shifted lag offset s') : s.step.Shifted lag offset s'.step := by
  unfold Session.step
  rw [h.mode]
  split
  · exact h.advance.map
  · exact ⟨rfl, h⟩

theorem runStep (h : s.Shifted lag offset s') (hm : s.mode = .running)
    (hroom : s'.RoomUntil s'.runStep.next) : s.runStep.Shifted lag offset s'.runStep := by
  refine ⟨h.nextEvent, ?_⟩
  have he := h.nextEvent
  have hm' : s'.mode = .running := h.mode.trans hm
  have hrecord := (h.record s.nextEvent).withoutTimer
  -- The two events are one, so both sessions converge or both wait again.
  rcases runStep_cases hm with ⟨hc, heq⟩ | ⟨hc, heq⟩
  · rcases runStep_cases hm' with ⟨_, heq'⟩ | ⟨hc', _⟩
    · rw [heq, heq', he]
      exact hrecord.withMode (by decide)
    · rw [he, hc] at hc'
      cases hc'
  · rcases runStep_cases hm' with ⟨hc', _⟩ | ⟨_, heq'⟩
    · rw [he, hc] at hc'
      cases hc'
    · rw [heq'] at hroom
      rw [heq, heq']
      rw [he] at hroom ⊢
      exact hrecord.wait (h.interval hm) hroom

/-- A tick that the first session is told of and the second one by the id at the distance. -/
theorem tick (h : s.Shifted lag offset s') (id : TimerId)
    (hroom : s'.RoomUntil (s'.tick (id.shift offset)).next) :
    (s.tick id).Shifted lag offset (s'.tick (id.shift offset)) := by
  rcases s.tick_cases id with ⟨hm, ht, heq⟩ | ⟨hr, heq⟩
  · rcases s'.tick_cases (id.shift offset) with ⟨_, _, heq'⟩ | ⟨hr', _⟩
    · rw [heq'] at hroom
      rw [heq, heq']
      exact (h.runStep hm hroom).map
    · exact absurd (h.waits_iff.mpr ⟨hm, ht⟩) hr'
  · rcases s'.tick_cases (id.shift offset) with ⟨hm', ht', _⟩ | ⟨_, heq'⟩
    · exact absurd (h.waits_iff.mp ⟨hm', ht'⟩) hr
    · rw [heq, heq']
      exact ⟨rfl, h⟩

/-- The second session does not wait for a timer that was numbered before the distance. -/
theorem tick_of_number_lt (h : s.Shifted lag offset s') {id : TimerId}
    (hid : id.number < offset) : (s'.tick id).value = none ∧ (s'.tick id).next = s' := by
  have htimer := h.timer
  have hother : s'.timer ≠ some id := by
    intro hs'
    rw [hs'] at htimer
    cases hs : s.timer with
    | none => rw [hs] at htimer; cases htimer
    | some i =>
      rw [hs] at htimer
      cases htimer with
      | some hi =>
        rw [TimerId.Shifted] at hi
        omega
  rcases s'.tick_cases id with ⟨_, ht, _⟩ | ⟨_, heq⟩
  · exact absurd ht hother
  · rw [heq]
    exact ⟨rfl, rfl⟩

theorem reset (h : s.Shifted lag offset s') : s.reset.Shifted lag offset s'.reset := by
  refine ⟨rfl, ?_⟩
  have hstart : s'.start = s.start := by rw [h.rest]
  unfold Session.reset
  rw [hstart]
  exact h.cancelTimer.restartAt s.start

end Steps

theorem withSettings (h : s.Shifted lag offset s')
    {settings settings' : Except (InvalidSetting α) (Config α)} (hs : settings' = settings)
    (note : Note α) :
    (s.withSettings settings note).Shifted lag offset (s'.withSettings settings' note) := by
  subst hs
  cases settings' with
  | ok config => exact ⟨rfl, h.withConfig config⟩
  | error e => exact ⟨rfl, h⟩

/-- Both sessions draw the same point, or the rectangle cannot be drawn from. -/
theorem randomStart [Scalar α] [WordSource γ] (h : s.Shifted lag offset s') :
    Reply.Agree lag offset s.randomStart s'.randomStart := by
  have hdraw : s'.config.constraint.draw s'.bounds s'.source =
      s.config.constraint.draw s.bounds s.source := by rw [h.rest]
  unfold Session.randomStart
  rw [hdraw]
  cases s.config.constraint.draw s.bounds s.source with
  | error e => exact .error e
  | ok d =>
    exact .ok ⟨rfl, (h.cancelTimer.withStart d.source d.point).restartAt d.point⟩

/-! ## 3. Loops -/

section Loops

variable [Scalar α]

/-- Moving the clock: the induction is on the number of timers that may fire. -/
theorem fireUntil {deadline deadline' : Duration}
    (hdeadline : deadline'.nanos = deadline.nanos + lag) :
    ∀ (budget : Nat) {s s' : Session α VirtualClock γ}, s.Shifted lag offset s' →
      (∀ t ∈ s'.fireTurns deadline' budget, t.before.RoomUntil t.after) →
        (Session.fireUntil deadline budget s).Shifted lag offset
          (Session.fireUntil deadline' budget s')
  | 0, _, _, h, _ => ⟨rfl, h⟩
  | budget + 1, s, s', h, hroom => by
    rcases h.clock.popDue hdeadline with ⟨hpop, hpop'⟩ | ⟨id, id', c, c', hpop, hpop', hid, hc⟩
    · have hpop : Scheduler.popDue s.scheduler deadline = none := hpop
      have hpop' : Scheduler.popDue s'.scheduler deadline' = none := hpop'
      simp only [Session.fireUntil, hpop, hpop']
      exact ⟨rfl, h.withScheduler (h.clock.advanceTo hdeadline)⟩
    · have hpop : Scheduler.popDue s.scheduler deadline = some (id, c) := hpop
      have hpop' : Scheduler.popDue s'.scheduler deadline' = some (id', c') := hpop'
      have hissued : c'.issued = s'.scheduler.issued := NumberingScheduler.issued_popDue hpop'
      simp only [Session.fireTurns, hpop', List.forall_mem_cons] at hroom
      rw [hid.eq_shift] at hroom hpop'
      -- Taking a timer out hands none out: what the tick needs room for, the turn does.
      have hfired := (h.withScheduler hc).tick id fun hlt => hroom.1 (hissued ▸ hlt)
      have hrest := hfired.next.fireUntil hdeadline budget hroom.2
      simp only [Session.fireUntil, hpop, hpop']
      exact ⟨by rw [hfired.value, hrest.value], hrest.next⟩

/-- Single steps under an observer: the induction is on the number of steps allowed. -/
theorem stepUntil {ω : Type} (observe : Observer ω α) :
    ∀ (limit : Nat) (w : ω) {s s' : Session α VirtualClock γ}, s.Shifted lag offset s' →
      (s.stepUntil observe limit w).Shifted lag offset (s'.stepUntil observe limit w)
  | limit, w, s, s', h => by
    unfold Session.stepUntil
    rw [h.mode]
    split
    · exact ⟨rfl, h⟩
    · split
      · exact ⟨rfl, h⟩
      · rename_i limit
        obtain ⟨hvalue, hnext⟩ := h.step
        generalize s.step = taken at hvalue hnext ⊢
        generalize s'.step = taken' at hvalue hnext ⊢
        obtain ⟨event, next, _⟩ := taken
        obtain ⟨event', next', _⟩ := taken'
        obtain rfl : event' = event := hvalue
        cases event' with
        | none => exact ⟨rfl, hnext⟩
        | some e =>
          dsimp only
          split
          · exact ⟨rfl, hnext⟩
          · rename_i w' _
            have hrest := stepUntil observe limit w' hnext
            exact ⟨by rw [hrest.value], hrest.next⟩

theorem descend {ω : Type} (h : s.Shifted lag offset s') (observe : Observer ω α) (limit : Nat)
    (w : ω) : (s.descend observe limit w).Shifted lag offset (s'.descend observe limit w) := by
  have hcourse := h.pause.next.stepUntil observe limit w
  refine ⟨?_, hcourse.next⟩
  unfold Session.descend
  dsimp only
  rw [hcourse.value, hcourse.next.rest]
  rfl

end Loops

end Session.Shifted

/-! ## 4. Commands and histories -/

/-- The same command, with the id of a tick at the distance. -/
def Command.shift (offset : Nat) : Command α → Command α
  | .tick id => .tick (id.shift offset)
  | command => command

/-- How far the command moves the clock. -/
def Command.elapsed : Command α → Duration
  | .advanceClock elapsed => elapsed
  | _ => .zero

section Histories

variable [Scalar α] [WordSource γ]

/-- In the history no reading of the clock and no due time is cut off at the longest duration, and
there are ids for all timers. -/
def Session.HasRoom : Session α VirtualClock γ → List (Command α) → Prop
  | _, [] => True
  | s, command :: rest =>
    s.scheduler.now.nanos + command.elapsed.nanos ≤ Duration.longest.nanos ∧
      (∀ t ∈ s.turnsOf command, t.before.RoomUntil t.after) ∧
      match s.perform command with
      | .ok r => r.next.HasRoom rest
      | .error _ => True

instance (s s' : Session α VirtualClock γ) : Decidable (s.RoomUntil s') :=
  inferInstanceAs (Decidable (_ → _))

instance decidableHasRoom : ∀ (s : Session α VirtualClock γ) (cs : List (Command α)),
    Decidable (s.HasRoom cs)
  | _, [] => .isTrue trivial
  | s, command :: rest =>
    have : Decidable (match s.perform command with
        | .ok r => r.next.HasRoom rest
        | .error _ => True) :=
      match s.perform command with
      | .ok r => decidableHasRoom r.next rest
      | .error _ => .isTrue trivial
    inferInstanceAs (Decidable (_ ∧ _ ∧ _))

namespace Session.Shifted

variable {s s' : Session α VirtualClock γ}

/-- **A command keeps sessions alike**, if there is room for it. -/
theorem perform (h : s.Shifted lag offset s') (command : Command α)
    (hfits : s'.scheduler.now.nanos + (command.shift offset).elapsed.nanos ≤
      Duration.longest.nanos)
    (hroom : ∀ t ∈ s'.turnsOf (command.shift offset), t.before.RoomUntil t.after) :
    Reply.Agree lag offset (s.perform command) (s'.perform (command.shift offset)) := by
  have hconfig : s'.config = s.config := by rw [h.rest]
  cases command with
  | step => exact .ok h.step.map
  | run interval => exact .ok (h.run interval (hroom _ (List.mem_singleton_self _))).map
  | tick id => exact .ok (h.tick id (hroom _ (List.mem_singleton_self _))).map
  | pause => exact .ok h.pause.map
  | reset => exact .ok h.reset.map
  | randomStart =>
    have hstart := h.randomStart
    show Reply.Agree lag offset (s.randomStart.map _) (s'.randomStart.map _)
    generalize s.randomStart = x at hstart ⊢
    generalize s'.randomStart = x' at hstart ⊢
    cases hstart with
    | error e => exact .error e
    | ok hreply => exact .ok hreply.map
  | setRule rule =>
    exact .ok (h.withSettings (congrArg (fun config => config.setRule rule) hconfig) _).map
  | setConstraint constraint =>
    exact .ok
      (h.withSettings (congrArg (fun config => config.setConstraint constraint) hconfig) _).map
  | setThreshold threshold =>
    exact .ok
      (h.withSettings (congrArg (fun config => config.setThreshold threshold) hconfig) _).map
  | advanceClock elapsed =>
    have hfits : s'.scheduler.now.nanos + elapsed.nanos ≤ Duration.longest.nanos := hfits
    have hdeadline : (s'.scheduler.now + elapsed).nanos =
        (s.scheduler.now + elapsed).nanos + lag := by
      have := h.clock.now
      rw [Duration.nanos_add, Duration.nanos_add]
      omega
    exact .ok (h.fireUntil hdeadline maxTicksPerAdvance hroom).map
  | descend limit stops => exact .ok (h.descend (.remembering stops) limit []).map

/-- **A history keeps sessions alike**, if there is room for it. -/
theorem play : ∀ (cs : List (Command α)) {s s' : Session α VirtualClock γ},
    s.Shifted lag offset s' → s'.HasRoom (cs.map (Command.shift offset)) →
      Reply.Agree lag offset (s.play cs) (s'.play (cs.map (Command.shift offset)))
  | [], _, _, h, _ => .ok ⟨rfl, h⟩
  | command :: rest, s, s', h, hroom => by
    obtain ⟨hfits, hturns, hrest⟩ := hroom
    have hfirst := h.perform command hfits hturns
    rw [List.map_cons]
    unfold Session.play
    generalize s.perform command = x at hfirst ⊢
    generalize s'.perform (command.shift offset) = x' at hfirst hrest ⊢
    cases hfirst with
    | error e => exact .error e
    | @ok r r' hfirst =>
      have hothers := hfirst.next.play rest hrest
      show Reply.Agree lag offset ((r.next.play rest).bind _) ((r'.next.play _).bind _)
      generalize r.next.play rest = y at hothers ⊢
      generalize r'.next.play _ = y' at hothers ⊢
      cases hothers with
      | error e => exact .error e
      | ok hothers => exact .ok ⟨congrArg₂ List.cons hfirst.value hothers.value, hothers.next⟩

end Session.Shifted

end Histories

/-! ## 5. Starting over -/

namespace Session

/-- If the clock holds no timer but that of the session, it holds none without it. -/
theorem pending_released {s : Session α VirtualClock γ}
    (h : ∀ t ∈ s.scheduler.pending, s.pendingTimer = some t.id) : s.released.pending = [] := by
  unfold pendingTimer at h
  refine List.eq_nil_iff_forall_not_mem.mpr fun t ht => ?_
  unfold released at ht
  cases hs : s.timer with
  | none =>
    rw [hs] at ht
    have hid := h t ht
    rw [hs] at hid
    cases hid
  | some id =>
    rw [hs] at ht
    obtain ⟨htp, hne⟩ := List.mem_filter.mp ht
    have hid := h t htp
    rw [hs] at hid
    cases hid
    simp at hne

/-- Only ticks that a host has reported leave other timers in the clock. -/
theorem owns_clock_of_no_strays [Scalar α] [WordSource γ] {s₀ : Session α VirtualClock γ}
    (h₀ : s₀.Opened VirtualClock.new) {cs : List (Command α)}
    {r : Reply (List (Answer α)) α VirtualClock γ} (h : s₀.play cs = .ok r)
    (hn : r.next.scheduler.issued < UInt64.size)
    (hstrays : (s₀.turns cs).filterMap Turn.strays = []) :
    ∀ t ∈ r.next.scheduler.pending, r.next.pendingTimer = some t.id := by
  obtain ⟨hstart, hvalid, hclock⟩ := h₀.fresh
  have hnew : s₀.Attends [] := .rest (hclock ▸ .new) hstart.timer
  have hattends : r.next.Attends ((s₀.turns cs).filterMap Turn.strays) :=
    (Session.linked_turns h).induct_numbered
      (P := fun past s => s.Attends (past.filterMap Turn.strays))
      (fun _ _ ht hc hn hattends => hattends.turn ht hc hn) (hstart.coherent hvalid) hn [] hnew
  intro t ht
  refine Decidable.byContradiction fun hne => ?_
  have hstray := hattends.others t ht hne
  rw [hstrays] at hstray
  exact List.not_mem_nil hstray

/-- A session that was reset is like a new one. -/
theorem shifted_reset [Scalar α] {s fresh : Session α VirtualClock γ}
    (hown : ∀ t ∈ s.scheduler.pending, s.pendingTimer = some t.id)
    (hfresh : Session.new s.objective s.config s.start VirtualClock.new s.source = .ok fresh) :
    (fresh.withBounds s.bounds).Shifted s.scheduler.now.nanos s.scheduler.issued s.reset.next := by
  have hclock : VirtualClock.new.Shifted s.released.now.nanos s.released.issued s.released :=
    .new (pending_released hown)
  have hnow : s.released.now = s.scheduler.now := by
    unfold released; split <;> rfl
  have hissued : s.released.issued = s.scheduler.issued := by
    unfold released; split <;> rfl
  rw [hnow, hissued] at hclock
  unfold Session.new at hfresh
  split at hfresh
  · cases hfresh
    exact ⟨hclock, .none, fun hrun => absurd hrun (by decide : Mode.idle ≠ .running), rfl⟩
  · cases hfresh

/-- **A reset gives back a new session.**

Let the clock of a session hold no timer but the one that the session waits for, and let the session
be reset; it may have had any history.  Let another session be opened over a new clock, with the
objective, the settings and the start of the first, and with its source and its rectangle.
Whatever is done to both, as long as no reading of the clock and no due time is cut off and there
are ids left, they answer alike.  After it mode, current point, path, readings, settings and start
are the same; the clock of the first has all its readings later, by what it read at the reset, and
all its timers numbered higher, by what it had handed out by then; and a tick of a timer that was
handed out before the reset does nothing. -/
theorem reset_gives_new_session [Scalar α] [WordSource γ] {s fresh : Session α VirtualClock γ}
    (hown : ∀ t ∈ s.scheduler.pending, s.pendingTimer = some t.id)
    (hfresh : Session.new s.objective s.config s.start VirtualClock.new s.source = .ok fresh)
    (cs : List (Command α))
    (hroom : s.reset.next.HasRoom (cs.map (Command.shift s.scheduler.issued))) :
    let new := (fresh.withBounds s.bounds).play cs
    let again := s.reset.next.play (cs.map (Command.shift s.scheduler.issued))
    (∃ e, new = .error e ∧ again = .error e) ∨
      ∃ r r', new = .ok r ∧ again = .ok r' ∧ r'.value = r.value ∧
        r'.next.mode = r.next.mode ∧ r'.next.iterate = r.next.iterate ∧
        r'.next.trajectory = r.next.trajectory ∧ r'.next.readings = r.next.readings ∧
        r'.next.functionValue = r.next.functionValue ∧ r'.next.config = r.next.config ∧
        r'.next.start = r.next.start ∧
        r'.next.pendingTimer = r.next.pendingTimer.map (TimerId.shift s.scheduler.issued) ∧
        r.next.scheduler.Shifted s.scheduler.now.nanos s.scheduler.issued r'.next.scheduler ∧
        ∀ id, id.number < s.scheduler.issued →
          (r'.next.tick id).value = none ∧ (r'.next.tick id).next = r'.next := by
  have halike := (shifted_reset hown hfresh).play cs hroom
  generalize (fresh.withBounds s.bounds).play cs = new at halike ⊢
  generalize s.reset.next.play (cs.map (Command.shift s.scheduler.issued)) = again at halike ⊢
  cases halike with
  | error e => exact Or.inl ⟨e, rfl, rfl⟩
  | @ok r r' h =>
    obtain ⟨hiterate, htrajectory, hreadings, hvalue, hconfig, hstart⟩ := h.next.readouts
    exact Or.inr ⟨r, r', rfl, rfl, h.value, h.next.mode, hiterate, htrajectory, hreadings, hvalue,
      hconfig, hstart, h.next.pendingTimer, h.next.clock,
      fun _ hid => h.next.tick_of_number_lt hid⟩

/-- A run with two ticks on the way to its third. -/
def interruptedRun : List (Command Float) :=
  [.run (.ofNanos 1000000), .advanceClock (.ofNanos 2500000)]

/-- A run with a tick on the clock, one that a host reports and one for a timer that there never
was, then a descent, another start and another run. -/
def secondLife : List (Command Float) :=
  [.step, .run (.ofNanos 2000000), .advanceClock (.ofNanos 3000000), .tick ⟨1⟩, .tick ⟨9⟩,
    .descend 2 fun _ => false, .randomStart, .run (.ofNanos 1000000),
    .advanceClock (.ofNanos 4000000)]

/-- The bundled session, interrupted in a run and reset, and a new one. -/
theorem reset_in_a_run_gives_new_session :
    ∃ (s₀ fresh : Session Float VirtualClock Xoshiro)
      (r : Reply (List (Answer Float)) Float VirtualClock Xoshiro),
      bundled .default ⟨25.0, 15.0⟩ (Xoshiro.ofSeed 7) = .ok s₀ ∧
      s₀.play interruptedRun = .ok r ∧ r.next.mode = .running ∧ r.next.scheduler.issued = 3 ∧
      (∀ t ∈ r.next.scheduler.pending, r.next.pendingTimer = some t.id) ∧
      Session.new r.next.objective r.next.config r.next.start VirtualClock.new r.next.source =
        .ok fresh ∧
      r.next.reset.next.HasRoom (secondLife.map (Command.shift r.next.scheduler.issued)) ∧
      ∃ a a' : Reply (List (Answer Float)) Float VirtualClock Xoshiro,
        (fresh.withBounds r.next.bounds).play secondLife = .ok a ∧
        r.next.reset.next.play (secondLife.map (Command.shift r.next.scheduler.issued)) = .ok a' ∧
        a'.value = a.value ∧ a'.next.mode = a.next.mode ∧
        a'.next.trajectory = a.next.trajectory ∧
        a'.next.pendingTimer = a.next.pendingTimer.map (TimerId.shift r.next.scheduler.issued) := by
  obtain ⟨s₀, r, hs, hr, ⟨hm, hissued, hown, hroom⟩, fresh, hfresh, hok⟩ := exists_played
    (opened_bundled Config.made_default) (fun _ r =>
      (r.next.mode = .running ∧ r.next.scheduler.issued = 3 ∧
        (∀ t ∈ r.next.scheduler.pending, r.next.pendingTimer = some t.id) ∧
        r.next.reset.next.HasRoom (secondLife.map (Command.shift r.next.scheduler.issued))) ∧
      ∃ fresh, Session.new r.next.objective r.next.config r.next.start VirtualClock.new
        r.next.source = .ok fresh ∧
          ((fresh.withBounds r.next.bounds).play secondLife).isOk = true)
    (rfl : bundled .default ⟨25.0, 15.0⟩ (Xoshiro.ofSeed 7) = .ok _)
    (rfl : Session.play _ interruptedRun = .ok _)
    ⟨by decide +kernel, _, if_pos (by decide +kernel), by decide +kernel⟩ fun _ _ _ _ h => h
  rcases reset_gives_new_session hown hfresh secondLife hroom with
    ⟨e, hnew, _⟩ | ⟨a, a', hnew, hagain, hvalue, hmode, _, htrajectory, _, _, _, _, htimer, _⟩
  · rw [hnew] at hok
    cases hok
  · exact ⟨s₀, fresh, r, hs, hr, hm, hissued, hown, hfresh, hroom, a, a', hnew, hagain, hvalue,
      hmode, htrajectory, htimer⟩

/-- **Without strays every reset gives back a new session.**  If no tick was honoured on the word of
a host, the clock holds no timer but the one that the session waits for, whatever else was done. -/
theorem agree_reset_of_no_strays [Scalar α] [WordSource γ] {s₀ fresh : Session α VirtualClock γ}
    (h₀ : s₀.Opened VirtualClock.new) {past cs : List (Command α)}
    {r : Reply (List (Answer α)) α VirtualClock γ} (h : s₀.play past = .ok r)
    (hn : r.next.scheduler.issued < UInt64.size)
    (hstrays : (s₀.turns past).filterMap Turn.strays = [])
    (hfresh : Session.new r.next.objective r.next.config r.next.start VirtualClock.new
      r.next.source = .ok fresh)
    (hroom : r.next.reset.next.HasRoom (cs.map (Command.shift r.next.scheduler.issued))) :
    Reply.Agree r.next.scheduler.now.nanos r.next.scheduler.issued
      ((fresh.withBounds r.next.bounds).play cs)
      (r.next.reset.next.play (cs.map (Command.shift r.next.scheduler.issued))) :=
  (shifted_reset (owns_clock_of_no_strays h₀ h hn hstrays) hfresh).play cs hroom

end Session

end Downhill

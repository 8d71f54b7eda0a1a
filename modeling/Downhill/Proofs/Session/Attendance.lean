import Downhill.Proofs.Session.Ticks
import Downhill.Proofs.Time.Pending

/-! # A session and its clock agree

Both the session and its virtual clock remember the timer of a run, and they write it down at
different moments: a timer that fires is gone from the clock before the session hears of it, and
the tick of a host takes it from the session while the clock goes on holding it.  Such a timer has
strayed.  Apart from strays, the clock holds the timer of the session and nothing else.

* `Attends`: the invariant, with the strays of the past as a parameter.
* `HoldsOnly`: the state of the clock inside an operation, between the moment a timer is given up
  and the one the next timer is scheduled.  Every operation goes from `Attends` over `HoldsOnly`
  to `Attends`.
-/

namespace Downhill

variable {α σ γ : Type}

/-- The timer that the turn leaves behind in the clock: the session honours it on the word of a
host. -/
def Turn.strays (t : Turn α σ γ) : Option TimerId :=
  match t.move with
  | .tick _ => t.honours
  | _ => none

theorem Turn.strays_of_no_event {t : Turn α σ γ} (h : t.event = none) : t.strays = none := by
  unfold strays
  split
  · exact honours_of_no_event h
  · rfl

/-! ## 1. Clock and session -/

/-- All pending timers are among the given ones. -/
structure VirtualClock.HoldsOnly (ids : List TimerId) (c : VirtualClock) : Prop where
  ordered : c.Ordered
  current : c.Current
  mem : ∀ t ∈ c.pending, t.id ∈ ids

theorem VirtualClock.HoldsOnly.new : VirtualClock.new.HoldsOnly [] where
  ordered := .new
  current := .new
  mem t ht := by cases ht

/-- The clock holds the timer that the session waits for, the last one handed out, and otherwise
at most strays. -/
structure Session.Attends (strays : List TimerId) (s : Session α VirtualClock γ) : Prop where
  ordered : s.scheduler.Ordered
  current : s.scheduler.Current
  waiting : ∀ id, s.timer = some id →
    id.number + 1 = s.scheduler.issued ∧ ∃ t ∈ s.scheduler.pending, t.id = id
  others : ∀ t ∈ s.scheduler.pending, s.timer ≠ some t.id → t.id ∈ strays

namespace Session.Attends

variable {strays : List TimerId} {s : Session α VirtualClock γ} {c : VirtualClock}
  {id : TimerId} {deadline : Duration}

/-- A session without a timer attends to a clock that holds only strays. -/
theorem rest (h : s.scheduler.HoldsOnly strays) (ht : s.timer = none) : s.Attends strays where
  ordered := h.ordered
  current := h.current
  waiting id hid := by rw [ht] at hid; cases hid
  others t htp _ := h.mem t htp

/-- So does a session that then schedules a timer. -/
theorem wait (h : s.scheduler.HoldsOnly strays) (hn : s.scheduler.issued < UInt64.size) :
    s.wait.Attends strays where
  ordered := h.ordered.schedule hn s.interval
  current := h.current.schedule s.interval
  waiting id hid := by
    cases hid
    refine ⟨congrArg (· + 1) (TimerId.number_of_lt hn), ?_⟩
    exact ⟨_, List.mem_append_right _ (List.mem_singleton.mpr rfl), rfl⟩
  others t ht hne := by
    rcases List.mem_append.mp ht with ht | ht
    · exact h.mem t ht
    · rw [List.mem_singleton.mp ht] at hne
      exact absurd rfl hne

/-- Without its timer the clock holds only strays. -/
theorem holdsOnly_released (h : s.Attends strays) : s.released.HoldsOnly strays := by
  unfold released
  split
  · rename_i timer htimer
    refine ⟨h.ordered.sublist List.filter_sublist rfl, h.current.cancel timer, ?_⟩
    intro t ht
    obtain ⟨ht, hne⟩ := List.mem_filter.mp ht
    refine h.others t ht fun heq => ?_
    rw [htimer] at heq
    cases heq
    simp at hne
  · rename_i htimer
    exact ⟨h.ordered, h.current, fun t ht => h.others t ht (by simp [htimer])⟩

/-- A timer that a host reports stays behind in the clock. -/
theorem holdsOnly_reported (h : s.Attends strays) (ht : s.timer = some id) :
    s.scheduler.HoldsOnly (strays ++ [id]) := by
  refine ⟨h.ordered, h.current, fun t htp => ?_⟩
  by_cases hid : t.id = id
  · simp [hid]
  · exact List.mem_append_left _ (h.others t htp (by simpa [ht] using Ne.symm hid))

/-- A timer that the clock fires has left it. -/
theorem holdsOnly_fired (h : s.Attends strays) (ht : s.timer = some id)
    (hpop : s.scheduler.popDue deadline = some (id, c)) : c.HoldsOnly strays := by
  have hcurrent := h.current.popDue hpop
  obtain ⟨t, htp, rfl, _, _, rfl⟩ := VirtualClock.popDue_cases hpop
  refine ⟨h.ordered.sublist List.erase_sublist rfl, hcurrent, fun u hu => ?_⟩
  obtain ⟨hu, hne⟩ := (h.ordered.mem_erase_iff htp).mp hu
  exact h.others u hu (by simpa [ht] using hne.symm)

/-- A stray that the clock fires is of no concern to the session. -/
theorem dropped (h : s.Attends strays) (ht : s.timer ≠ some id)
    (hpop : s.scheduler.popDue deadline = some (id, c)) :
    Session.Attends strays { s with scheduler := c } := by
  have hcurrent := h.current.popDue hpop
  obtain ⟨t, htp, rfl, _, _, rfl⟩ := VirtualClock.popDue_cases hpop
  refine ⟨h.ordered.sublist List.erase_sublist rfl, hcurrent, ?_, ?_⟩
  · intro id hid
    obtain ⟨hlast, u, hu, rfl⟩ := h.waiting id hid
    have hne : u.id ≠ t.id := fun heq => ht (heq ▸ hid)
    exact ⟨hlast, u, (h.ordered.mem_erase_iff htp).mpr ⟨hu, hne⟩, rfl⟩
  · intro u hu hne
    exact h.others u (List.mem_of_mem_erase hu) hne

/-- The timer of the session is pending once and not overdue. -/
theorem of_timer (h : s.Attends strays) {id : TimerId} (hid : s.timer = some id) :
    ∃ t : Timer, id = t.id ∧ t.id.number + 1 = s.scheduler.issued ∧
      s.scheduler.pending.filter (fun u => u.id = t.id) = [t] ∧ s.scheduler.now ≤ t.due := by
  obtain ⟨hlast, t, ht, rfl⟩ := h.waiting id hid
  exact ⟨t, rfl, hlast, h.ordered.filter_id ht, h.current t ht⟩

/-- Without strays, the clock holds the timer of the session and no other. -/
theorem length_pending (h : s.Attends []) :
    s.scheduler.pending.length = if s.timer.isSome then 1 else 0 := by
  cases htimer : s.timer with
  | none =>
    have hnil : s.scheduler.pending = [] :=
      List.eq_nil_iff_forall_not_mem.mpr fun t ht =>
        absurd (h.others t ht (by simp [htimer])) List.not_mem_nil
    simp [hnil]
  | some id =>
    obtain ⟨t, rfl, _, hfilter, _⟩ := h.of_timer htimer
    have hall : ∀ u ∈ s.scheduler.pending, decide (u.id = t.id) = true := by
      intro u hu
      refine decide_eq_true (Decidable.byContradiction fun hne => ?_)
      exact absurd (h.others u hu (by simpa [htimer] using Ne.symm hne)) List.not_mem_nil
    rw [List.filter_eq_self.mpr hall] at hfilter
    simp [hfilter]

end Session.Attends

/-! ## 2. Turns and histories -/

section Turns

variable [Scalar α]

/-- So does a session that takes a step of a run. -/
theorem Session.Attends.runStep {strays : List TimerId} {s : Session α VirtualClock γ}
    (h : s.scheduler.HoldsOnly strays) (hm : s.mode = .running)
    (hn : s.scheduler.issued < UInt64.size) : s.runStep.next.Attends strays := by
  rcases Session.runStep_cases hm with ⟨_, heq⟩ | ⟨_, heq⟩
  · rw [heq]
    exact .rest h rfl
  · rw [heq]
    exact .wait h hn

/-- A single step leaves the clock alone, unless it ends the descent. -/
theorem Session.Attends.step {strays : List TimerId} {s : Session α VirtualClock γ}
    (h : s.Attends strays) : s.advance.next.Attends strays := by
  cases he : s.nextEvent.converged with
  | true =>
    rw [s.advance_of_converged he]
    exact .rest h.holdsOnly_released rfl
  | false =>
    rw [s.advance_of_not_converged he]
    exact ⟨h.ordered, h.current, h.waiting, h.others⟩

variable [WordSource γ]

/-- **A turn keeps session and clock in agreement**, with one stray more if a host reports a
timer. -/
theorem Session.Attends.turn {past : List (Turn α VirtualClock γ)} {t : Turn α VirtualClock γ}
    (h : t.before.Attends (past.filterMap Turn.strays)) (ht : t.Sound) (hc : t.before.Coherent)
    (hn : t.after.scheduler.issued < UInt64.size) :
    t.after.Attends ((past ++ [t]).filterMap Turn.strays) := by
  have hnone : t.strays = none →
      (past ++ [t]).filterMap Turn.strays = past.filterMap Turn.strays := by
    intro hs
    simp [hs]
  have hb : t.before.scheduler.issued < UInt64.size := Nat.lt_of_le_of_lt ht.issued_le hn
  cases ht with
  | refused _ => rw [hnone (Turn.strays_of_no_event rfl)]; exact h
  | step _ => rw [hnone rfl]; exact h.step
  | @run s interval ha _ =>
    have htimer : s.timer = none := hc.timer_eq_none (Mode.acceptsManualStep_iff.mp ha).1
    have hrest := h.holdsOnly_released
    rw [Session.released_of_none htimer] at hrest
    rw [hnone rfl]
    exact .wait hrest hb
  | @tick s timer hm htimer =>
    rw [List.filterMap_append]
    exact .runStep (h.holdsOnly_reported htimer) hm hb
  | pause _ | reset _ | randomStart _ =>
    rw [hnone rfl]
    exact .rest h.holdsOnly_released rfl
  | set _ =>
    rw [hnone (Turn.strays_of_no_event rfl)]
    exact ⟨h.ordered, h.current, h.waiting, h.others⟩
  | @fire s timer c _ hpop hm htimer =>
    rw [hnone rfl]
    have hc : c.issued = s.scheduler.issued := NumberingScheduler.issued_popDue hpop
    have hfired := h.holdsOnly_fired htimer hpop
    exact Session.Attends.runStep hfired hm (hc ▸ hb)
  | @drop s timer c _ hpop hne =>
    have htimer : s.timer ≠ some timer := fun htimer => hne ⟨hc.running_of_timer htimer, htimer⟩
    rw [hnone rfl]
    exact h.dropped htimer hpop
  | settle hpop =>
    rw [hnone rfl]
    exact ⟨h.ordered.sublist (.refl _) rfl, h.current.advanceTo hpop, h.waiting, h.others⟩

/-- **The clock of a session holds its timer and nothing else, apart from strays.**

Let a session be opened with a new clock, and let fewer than `UInt64.size` timers be handed out.
After whatever is done to it: while it runs, the timer it waits for is the last one handed out, it
is pending exactly once, and it is not overdue; every other pending timer is one that a host has
reported and that was honoured; and if there was none of these, there is one pending timer while
the session runs and none otherwise. -/
theorem clock_agrees_with_session {s₀ : Session α VirtualClock γ}
    (h₀ : s₀.Opened VirtualClock.new) {cs : List (Command α)}
    {r : Reply (List (Answer α)) α VirtualClock γ} (h : s₀.play cs = .ok r)
    (hn : r.next.scheduler.issued < UInt64.size) :
    let s := r.next
    let strays := (s₀.turns cs).filterMap Turn.strays
    (s.mode = .running → ∃ t : Timer, s.pendingTimer = some t.id ∧
      t.id.number + 1 = s.scheduler.issued ∧
      s.scheduler.pending.filter (fun u => u.id = t.id) = [t] ∧ s.scheduler.now ≤ t.due) ∧
    (∀ t ∈ s.scheduler.pending, s.pendingTimer ≠ some t.id → t.id ∈ strays) ∧
    (strays = [] → s.scheduler.pending.length = if s.mode = .running then 1 else 0) := by
  obtain ⟨hstart, hvalid, hclock⟩ := h₀.fresh
  have hcoherent : r.next.Coherent := Session.Reachable.coherent ⟨s₀, cs, r, h₀, h, rfl⟩
  have hnew : s₀.scheduler.HoldsOnly [] := by
    rw [hclock]
    exact .new
  have hattends : r.next.Attends ((s₀.turns cs).filterMap Turn.strays) :=
    (Session.linked_turns h).induct_numbered
      (P := fun past s => s.Attends (past.filterMap Turn.strays))
      (fun _ _ ht hc hn hattends => hattends.turn ht hc hn) (hstart.coherent hvalid) hn []
      (Session.Attends.rest hnew hstart.timer)
  refine ⟨fun hm => ?_, hattends.others, fun hnil => ?_⟩
  · obtain ⟨id, hid⟩ := Option.isSome_iff_exists.mp (hcoherent.timer.mpr hm)
    obtain ⟨t, rfl, hpending⟩ := hattends.of_timer hid
    exact ⟨t, hid, hpending⟩
  · rw [hnil] at hattends
    rw [hattends.length_pending]
    exact ite_congr (propext hcoherent.timer) (fun _ => rfl) fun _ => rfl

end Turns

/-- A run of which a host reports the first timer, while the clock stands still, and then the
clock moves on. -/
def hostAndClock : List (Command Float) :=
  [.run (.ofNanos 1000000), .tick ⟨0⟩, .advanceClock (.ofNanos 500000)]

/-- The clock of a session that a host has driven holds a stray besides the timer. -/
theorem clock_agrees_after_host_tick :
    ∃ (s₀ : Session Float VirtualClock Xoshiro)
      (r : Reply (List (Answer Float)) Float VirtualClock Xoshiro),
      Session.bundled .default ⟨25.0, 15.0⟩ (Xoshiro.ofSeed 7) = .ok s₀ ∧
      s₀.play hostAndClock = .ok r ∧ r.next.scheduler.issued < UInt64.size ∧
      r.next.mode = .running ∧ r.next.scheduler.pending.map Timer.id = [⟨0⟩, ⟨1⟩] ∧
      (s₀.turns hostAndClock).filterMap Turn.strays = [⟨0⟩] ∧
      ∃ t : Timer, r.next.pendingTimer = some t.id ∧
        t.id.number + 1 = r.next.scheduler.issued ∧
        r.next.scheduler.pending.filter (fun u => u.id = t.id) = [t] ∧
        r.next.scheduler.now ≤ t.due := by
  refine Session.exists_played (Session.opened_bundled Config.made_default)
    (fun s₀ r => r.next.scheduler.issued < UInt64.size ∧ r.next.mode = .running ∧
      r.next.scheduler.pending.map Timer.id = [⟨0⟩, ⟨1⟩] ∧
      (s₀.turns hostAndClock).filterMap Turn.strays = [⟨0⟩]) rfl rfl (by decide +kernel) ?_
  rintro s₀ r hs hr ⟨hn, hm, hpending, hstrays⟩
  exact ⟨hn, hm, hpending, hstrays, (clock_agrees_with_session hs hr hn).1 hm⟩

end Downhill

import Downhill.Proofs.Session.Cadence
import Downhill.Objective.Quadratic

/-! # Time can be cut up

A movement of the clock takes out one timer after the other until none is due by the deadline, and
then the clock goes there.  It fires a limited number of timers, and if it meets that limit, the
clock stays at the last one.

* `Settles`: the same loop without a limit, as a relation, since it need not end: from a session,
  so many timers fire, these steps are taken, and this is the session at the deadline.
* `settles_of_lt`, `fireUntil_of_settles`: with enough of a budget the movement is that loop.
* `Settles.cut`: on its way the clock may stop at any earlier deadline.
* `settles_iff_of_stopped`: a movement that meets the limit is a beginning of the loop, and the
  loop goes on from where it stopped.
* `Resumes`: one movement after the other to the same deadline, until one does not meet the limit.
-/

namespace Downhill

variable {α γ : Type}

/-! ## 1. The time that is left -/

namespace Duration

/-- The time that is left from a clock reading up to the deadline. -/
def timeTo (now deadline : Duration) : Duration :=
  ⟨deadline.nanos - now.nanos, Nat.le_trans (Nat.sub_le _ _) deadline.bounded⟩

theorem add_timeTo {now deadline : Duration} (h : now ≤ deadline) :
    now + now.timeTo deadline = deadline := by
  refine ext_nanos ?_
  have hlong := deadline.le_longest
  rw [le_iff] at h hlong
  rw [nanos_add, show (now.timeTo deadline).nanos = deadline.nanos - now.nanos from rfl]
  omega

end Duration

namespace Session

variable [Scalar α]

/-! ## 2. The loop without a budget -/

/-- What the session answers when its clock, now `c`, has fired a timer. -/
def fired (s : Session α VirtualClock γ) (c : VirtualClock) (timer : TimerId) :
    Reply (Option (Event α)) α VirtualClock γ :=
  { s with scheduler := c }.tick timer

/-- Timers due by the deadline fire one after the other until there are none, and then the clock
moves to the deadline: `n` timers, the steps they are answered with, and the session after it. -/
inductive Settles (deadline : Duration) :
    Nat → Session α VirtualClock γ → List (Event α) → Session α VirtualClock γ → Prop where
  | done {s : Session α VirtualClock γ} (hpop : s.scheduler.popDue deadline = none) :
      Settles deadline 0 s [] { s with scheduler := s.scheduler.advanceTo deadline }
  | fire {s s' : Session α VirtualClock γ} {timer : TimerId} {c : VirtualClock} {n : Nat}
      {es : List (Event α)} (hpop : s.scheduler.popDue deadline = some (timer, c))
      (h : Settles deadline n (s.fired c timer).next es s') :
      Settles deadline (n + 1) s ((s.fired c timer).value.toList ++ es) s'

/-- How many timers fire on the way to the deadline, at most `budget` of them. -/
def pops (deadline : Duration) (budget : Nat) (s : Session α VirtualClock γ) : Nat :=
  (firedIn (s.fireTurns deadline budget)).length

variable {s s' : Session α VirtualClock γ} {deadline : Duration} {timer : TimerId}
  {c : VirtualClock} {n budget : Nat} {es : List (Event α)}

/-! Both the movement and the loop begin with the first timer that is due. -/

theorem fireUntil_none (hpop : s.scheduler.popDue deadline = none) (budget : Nat) :
    fireUntil deadline (budget + 1) s =
        ⟨[], { s with scheduler := s.scheduler.advanceTo deadline }, []⟩ ∧
      pops deadline (budget + 1) s = 0 := by
  have hpop' : Scheduler.popDue s.scheduler deadline = none := hpop
  refine ⟨?_, ?_⟩
  · simp only [fireUntil, hpop']
    rfl
  · simp only [pops, fireTurns, hpop']
    rfl

theorem fireUntil_some (hpop : s.scheduler.popDue deadline = some (timer, c)) (budget : Nat) :
    (fireUntil deadline (budget + 1) s).value =
        (s.fired c timer).value.toList ++
          (fireUntil deadline budget (s.fired c timer).next).value ∧
      (fireUntil deadline (budget + 1) s).next =
        (fireUntil deadline budget (s.fired c timer).next).next ∧
      pops deadline (budget + 1) s =
        pops deadline budget (s.fired c timer).next + 1 := by
  have hpop' : Scheduler.popDue s.scheduler deadline = some (timer, c) := hpop
  refine ⟨?_, ?_, ?_⟩
  · simp only [fireUntil, fired, hpop']
  · simp only [fireUntil, fired, hpop']
  · simp only [pops, fireTurns, fired, hpop']
    rfl

theorem settles_none_iff (hpop : s.scheduler.popDue deadline = none) :
    Settles deadline n s es s' ↔
      n = 0 ∧ es = [] ∧ s' = { s with scheduler := s.scheduler.advanceTo deadline } := by
  constructor
  · intro h
    cases h with
    | done _ => exact ⟨rfl, rfl, rfl⟩
    | fire hpop' _ => rw [hpop] at hpop'; cases hpop'
  · rintro ⟨rfl, rfl, rfl⟩
    exact .done hpop

theorem settles_some_iff (hpop : s.scheduler.popDue deadline = some (timer, c)) :
    Settles deadline n s es s' ↔ ∃ n' es', n = n' + 1 ∧
      es = (s.fired c timer).value.toList ++ es' ∧
      Settles deadline n' (s.fired c timer).next es' s' := by
  constructor
  · intro h
    cases h with
    | done hpop' => rw [hpop] at hpop'; cases hpop'
    | fire hpop' h =>
      rw [hpop] at hpop'
      cases hpop'
      exact ⟨_, _, rfl, rfl, h⟩
  · rintro ⟨n', es', rfl, rfl, h⟩
    exact .fire hpop h

/-! ## 3. With and without a budget -/

theorem pops_le : ∀ (budget : Nat) (s : Session α VirtualClock γ), pops deadline budget s ≤ budget
  | 0, _ => Nat.le_refl 0
  | budget + 1, s => by
    cases hpop : s.scheduler.popDue deadline with
    | none => rw [(fireUntil_none hpop budget).2]; exact Nat.zero_le _
    | some fired =>
      rw [(fireUntil_some hpop budget).2.2]
      exact Nat.succ_le_succ (pops_le budget _)

/-- A movement that does not meet its limit goes all the way. -/
theorem settles_of_lt : ∀ {budget : Nat} {s : Session α VirtualClock γ},
    pops deadline budget s < budget →
      Settles deadline (pops deadline budget s) s (fireUntil deadline budget s).value
        (fireUntil deadline budget s).next
  | 0, _, h => absurd h (Nat.not_lt_zero _)
  | budget + 1, s, h => by
    cases hpop : s.scheduler.popDue deadline with
    | none =>
      obtain ⟨hfire, hpops⟩ := fireUntil_none hpop budget
      rw [hfire, hpops]
      exact .done hpop
    | some fired =>
      obtain ⟨hvalue, hnext, hpops⟩ := fireUntil_some hpop budget
      rw [hvalue, hnext, hpops]
      rw [hpops] at h
      exact .fire hpop (settles_of_lt (Nat.lt_of_succ_lt_succ h))

/-- The loop is the movement with any limit that it does not meet. -/
theorem fireUntil_of_settles (h : Settles deadline n s es s') : ∀ budget : Nat, n < budget →
    pops deadline budget s = n ∧ (fireUntil deadline budget s).value = es ∧
      (fireUntil deadline budget s).next = s' := by
  induction h with
  | done hpop =>
    intro budget hn
    obtain ⟨budget, rfl⟩ := Nat.exists_eq_add_one_of_ne_zero (Nat.ne_of_gt hn)
    obtain ⟨hfire, hpops⟩ := fireUntil_none hpop budget
    rw [hfire]
    exact ⟨hpops, rfl, rfl⟩
  | @fire s s' timer c n es hpop _ ih =>
    intro budget hn
    obtain ⟨budget, rfl⟩ := Nat.exists_eq_add_one_of_ne_zero (Nat.ne_of_gt (Nat.zero_lt_of_lt hn))
    obtain ⟨hpops', hvalue', hnext'⟩ := ih budget (Nat.lt_of_succ_lt_succ hn)
    obtain ⟨hvalue, hnext, hpops⟩ := fireUntil_some hpop budget
    rw [hvalue, hnext, hpops, hpops', hvalue', hnext']
    exact ⟨rfl, rfl, rfl⟩

/-- The loop ends in one way. -/
theorem Settles.unique {n' : Nat} {es' : List (Event α)} {s'' : Session α VirtualClock γ}
    (h : Settles deadline n s es s') (h' : Settles deadline n' s es' s'') :
    n = n' ∧ es = es' ∧ s' = s'' := by
  obtain ⟨hpops, hvalue, hnext⟩ := fireUntil_of_settles h (max n n' + 1) (by omega)
  obtain ⟨hpops', hvalue', hnext'⟩ := fireUntil_of_settles h' (max n n' + 1) (by omega)
  exact ⟨hpops.symm.trans hpops', hvalue.symm.trans hvalue', hnext.symm.trans hnext'⟩

/-- **A movement that meets its limit is a beginning of the loop.**  The loop goes on from the
session that the movement leaves, and it ends exactly if it ends from there. -/
theorem settles_iff_of_stopped : ∀ {budget : Nat} {s : Session α VirtualClock γ} {n : Nat}
    {es : List (Event α)}, pops deadline budget s = budget →
      (Settles deadline n s es s' ↔ ∃ n' es', n = n' + budget ∧
        es = (fireUntil deadline budget s).value ++ es' ∧
        Settles deadline n' (fireUntil deadline budget s).next es' s')
  | 0, s, n, es, _ => by
    constructor
    · intro h
      exact ⟨n, es, rfl, rfl, h⟩
    · rintro ⟨n', es', rfl, rfl, h⟩
      exact h
  | budget + 1, s, n, es, hstop => by
    cases hpop : s.scheduler.popDue deadline with
    | none =>
      rw [(fireUntil_none hpop budget).2] at hstop
      cases hstop
    | some fired =>
      obtain ⟨hvalue, hnext, hpops⟩ := fireUntil_some hpop budget
      have hstop' := Nat.succ.inj (hpops.symm.trans hstop)
      rw [settles_some_iff hpop, hvalue, hnext]
      constructor
      · rintro ⟨n', es', rfl, rfl, h⟩
        obtain ⟨n'', es'', rfl, rfl, h'⟩ := (settles_iff_of_stopped hstop').mp h
        exact ⟨n'', es'', rfl, (List.append_assoc _ _ _).symm, h'⟩
      · rintro ⟨n', es', rfl, rfl, h⟩
        exact ⟨n' + budget, _, rfl, List.append_assoc _ _ _,
          (settles_iff_of_stopped hstop').mpr ⟨n', es', rfl, rfl, h⟩⟩

/-! ## 4. The clock on its way -/

/-- The answer to a timer does not move the clock. -/
theorem now_fired (s : Session α VirtualClock γ) (c : VirtualClock) (timer : TimerId) :
    (s.fired c timer).next.scheduler.now = c.now := by
  rcases tick_cases { s with scheduler := c } timer with ⟨hm, _, h⟩ | ⟨_, h⟩
  · rw [fired, h]
    rcases runStep_cases hm with ⟨_, hnext⟩ | ⟨_, hnext⟩
    · rw [Reply.map, hnext]
      rfl
    · rw [Reply.map, hnext]
      rfl
  · rw [fired, h]

/-- A clock that moves to a deadline is not past it on the way. -/
theorem now_fireUntil_le : ∀ (budget : Nat) {s : Session α VirtualClock γ},
    s.scheduler.now ≤ deadline → (fireUntil deadline budget s).next.scheduler.now ≤ deadline
  | 0, _, hnow => hnow
  | budget + 1, s, hnow => by
    cases hpop : s.scheduler.popDue deadline with
    | none =>
      rw [(fireUntil_none hpop budget).1]
      exact Nat.le_of_eq (congrArg Duration.nanos (if_pos hnow))
    | some fired =>
      rw [(fireUntil_some hpop budget).2.1]
      refine now_fireUntil_le budget ?_
      rw [now_fired]
      exact VirtualClock.now_popDue_le hpop hnow

theorem Settles.now (h : Settles deadline n s es s') (hnow : s.scheduler.now ≤ deadline) :
    s'.scheduler.now = deadline := by
  induction h with
  | done _ => exact if_pos hnow
  | fire hpop _ ih =>
    refine ih ?_
    rw [now_fired]
    exact VirtualClock.now_popDue_le hpop hnow

/-- **The clock may stop on its way.**  The timers that are due by the earlier deadline fire first
in any case, and those fired after a stop there are the ones that would have followed them. -/
theorem Settles.cut {early : Duration} (h : Settles deadline n s es s') (hle : early ≤ deadline) :
    ∃ n₁ n₂ es₁ es₂ stop, n = n₁ + n₂ ∧ es = es₁ ++ es₂ ∧ Settles early n₁ s es₁ stop ∧
      Settles deadline n₂ stop es₂ s' := by
  induction h with
  | @done s hpop =>
    have hpop' : s.scheduler.popDue early = none := by
      rw [VirtualClock.popDue_eq_none_iff] at hpop ⊢
      exact fun t ht => Nat.lt_of_le_of_lt hle (hpop t ht)
    refine ⟨0, 0, [], [], _, rfl, rfl, .done hpop', ?_⟩
    refine (settles_none_iff ?_).mpr ⟨rfl, rfl, ?_⟩
    · rw [← hpop]
      exact VirtualClock.popDue_advanceTo hpop'
    · rw [← VirtualClock.advanceTo_advanceTo hle]
  | @fire s s' timer c n es hpop h ih =>
    cases hpop' : s.scheduler.popDue early with
    | some fired =>
      cases (VirtualClock.popDue_of_le hpop' hle).symm.trans hpop
      obtain ⟨n₁, n₂, es₁, es₂, stop, rfl, rfl, h₁, h₂⟩ := ih
      exact ⟨n₁ + 1, n₂, _, es₂, stop, by omega, (List.append_assoc _ _ _).symm,
        .fire hpop' h₁, h₂⟩
    | none =>
      refine ⟨0, n + 1, [], _, _, by omega, rfl, .done hpop', ?_⟩
      have hpop'' : (s.scheduler.advanceTo early).popDue deadline = some (timer, c) := by
        rw [← hpop]
        exact VirtualClock.popDue_advanceTo hpop'
      exact .fire (s := { s with scheduler := s.scheduler.advanceTo early }) hpop'' h

/-! ## 5. One movement after the other -/

/-- The timers that fire while the clock moves on by the given time. -/
def popped (s : Session α VirtualClock γ) (elapsed : Duration) : List TimerId :=
  firedIn (s.fireTurns (s.scheduler.now + elapsed) maxTicksPerAdvance)

/-- The clock is moved to the deadline, again and again for as long as the movement meets its
limit: the steps that are taken, and the session after the movement that does not. -/
inductive Resumes (deadline : Duration) :
    Session α VirtualClock γ → List (Event α) → Session α VirtualClock γ → Prop where
  | last {s : Session α VirtualClock γ}
      (h : (s.popped (s.scheduler.now.timeTo deadline)).length < maxTicksPerAdvance) :
      Resumes deadline s (s.advanceClock (s.scheduler.now.timeTo deadline)).value
        (s.advanceClock (s.scheduler.now.timeTo deadline)).next
  | again {s s' : Session α VirtualClock γ} {es : List (Event α)}
      (h : (s.popped (s.scheduler.now.timeTo deadline)).length = maxTicksPerAdvance)
      (hrest : Resumes deadline (s.advanceClock (s.scheduler.now.timeTo deadline)).next es s') :
      Resumes deadline s ((s.advanceClock (s.scheduler.now.timeTo deadline)).value ++ es) s'

theorem advanceClock_timeTo (hnow : s.scheduler.now ≤ deadline) :
    s.advanceClock (s.scheduler.now.timeTo deadline) = fireUntil deadline maxTicksPerAdvance s := by
  rw [advanceClock, show Scheduler.now s.scheduler = s.scheduler.now from rfl,
    Duration.add_timeTo hnow]

theorem length_popped_timeTo (hnow : s.scheduler.now ≤ deadline) :
    (s.popped (s.scheduler.now.timeTo deadline)).length = pops deadline maxTicksPerAdvance s := by
  rw [popped, Duration.add_timeTo hnow, pops]

theorem Resumes.settles (h : Resumes deadline s es s') :
    s.scheduler.now ≤ deadline → ∃ n, Settles deadline n s es s' := by
  induction h with
  | last h =>
    intro hnow
    rw [length_popped_timeTo hnow] at h
    rw [advanceClock_timeTo hnow]
    exact ⟨_, settles_of_lt h⟩
  | again h hrest ih =>
    intro hnow
    rw [length_popped_timeTo hnow] at h
    rw [advanceClock_timeTo hnow] at ih ⊢
    obtain ⟨n, hn⟩ := ih (now_fireUntil_le _ hnow)
    exact ⟨_, (settles_iff_of_stopped h).mpr ⟨n, _, rfl, rfl, hn⟩⟩

/-- Each movement that meets its limit leaves the loop with fewer timers to fire. -/
theorem Settles.resumes (h : Settles deadline n s es s') (hnow : s.scheduler.now ≤ deadline) :
    Resumes deadline s es s' := by
  induction n using Nat.strongRecOn generalizing s es with
  | ind n ih =>
    have hle : pops deadline maxTicksPerAdvance s ≤ maxTicksPerAdvance := pops_le _ s
    rcases Nat.lt_or_eq_of_le hle with hlt | heq
    · obtain ⟨rfl, rfl, rfl⟩ := h.unique (settles_of_lt hlt)
      rw [← advanceClock_timeTo hnow]
      exact .last (by rw [length_popped_timeTo hnow]; exact hlt)
    · obtain ⟨n', es', rfl, rfl, h'⟩ := (settles_iff_of_stopped heq).mp h
      have hless : n' < n' + maxTicksPerAdvance := Nat.lt_add_of_pos_right (by decide)
      have hrest := ih n' hless h' (now_fireUntil_le _ hnow)
      rw [← advanceClock_timeTo hnow] at hrest ⊢
      exact .again (by rw [length_popped_timeTo hnow]; exact heq) hrest

/-- **Time can be cut up, and the limit loses nothing.**

If a movement of the clock fires fewer timers than it may, then it can be made in two parts: the
first and then the second return, one after the other, the steps that it returns, and they leave
the same session.  If it fires as many as it may, then the clock can be moved on to the same
deadline until a movement does not meet the limit any more: this comes to an end exactly if the
loop without a limit does, with the same steps, those of the first movement before the others, and
with the same session.  No matter what mode the session is in and what timers are pending. -/
theorem elapsed_time_can_be_cut (s : Session α VirtualClock γ) :
    (∀ a b : Duration, (s.popped (a + b)).length < maxTicksPerAdvance →
      (s.advanceClock (a + b)).value =
          (s.advanceClock a).value ++ ((s.advanceClock a).next.advanceClock b).value ∧
        (s.advanceClock (a + b)).next = ((s.advanceClock a).next.advanceClock b).next) ∧
    ∀ elapsed : Duration, (s.popped elapsed).length = maxTicksPerAdvance →
      ∀ (es : List (Event α)) (s' : Session α VirtualClock γ),
        Resumes (s.scheduler.now + elapsed) (s.advanceClock elapsed).next es s' ↔
          ∃ n, Settles (s.scheduler.now + elapsed) n s ((s.advanceClock elapsed).value ++ es) s' := by
  constructor
  · intro a b hlt
    have hwhole := settles_of_lt hlt
    have hle : s.scheduler.now + a ≤ s.scheduler.now + (a + b) := by
      rw [← Duration.add_add]
      exact Duration.le_add _ b
    obtain ⟨n₁, n₂, es₁, es₂, stop, hn, hes, h₁, h₂⟩ := hwhole.cut hle
    have hcount : n₁ + n₂ < maxTicksPerAdvance := hn ▸ hlt
    obtain ⟨-, hvalue₁, hnext₁⟩ := fireUntil_of_settles h₁ maxTicksPerAdvance
      (Nat.lt_of_le_of_lt (Nat.le_add_right _ _) hcount)
    obtain ⟨-, hvalue₂, hnext₂⟩ := fireUntil_of_settles h₂ maxTicksPerAdvance
      (Nat.lt_of_le_of_lt (Nat.le_add_left _ _) hcount)
    have hfirst : s.advanceClock a = fireUntil (s.scheduler.now + a) maxTicksPerAdvance s := rfl
    have hsecond : stop.advanceClock b =
        fireUntil (s.scheduler.now + (a + b)) maxTicksPerAdvance stop := by
      have hstop : stop.scheduler.now = s.scheduler.now + a := h₁.now (Duration.le_add _ a)
      rw [advanceClock, show Scheduler.now stop.scheduler = stop.scheduler.now from rfl, hstop,
        Duration.add_add]
    rw [hfirst, hnext₁, hvalue₁, hsecond, hvalue₂, hnext₂]
    exact ⟨hes, rfl⟩
  · intro elapsed hstop es s'
    have hnow : (s.advanceClock elapsed).next.scheduler.now ≤ s.scheduler.now + elapsed :=
      now_fireUntil_le _ (Duration.le_add _ elapsed)
    constructor
    · intro h
      obtain ⟨n, hn⟩ := h.settles hnow
      exact ⟨_, (settles_iff_of_stopped hstop).mpr ⟨n, es, rfl, rfl, hn⟩⟩
    · rintro ⟨n, h⟩
      obtain ⟨n', es', -, hes, h'⟩ := (settles_iff_of_stopped hstop).mp h
      rw [List.append_cancel_left hes]
      exact h'.resumes hnow

/-- A descent on a slope that is the same everywhere does not end. -/
theorem stepsLeft_fixed {value : α} {gradient : Vec α} {hessian : Mat α}
    (ho : s.objective = .fixed value gradient hessian)
    (h : ¬ gradient.norm ≤ s.config.threshold) : s.stepsLeft = ⊤ := by
  have hsteep : ∀ (j k : Nat) (p : Point α),
      ((Objective.fixed value gradient hessian).stepAfter s.config j k p).converged = false := by
    intro j
    induction j with
    | zero => intro k p; exact decide_eq_false h
    | succ j ih => intro k p; exact ih _ _
  have hahead : ∀ j : ℕ, (if (s.ahead j).converged then (j + 1 : ℕ∞) else ⊤) = ⊤ := by
    intro j
    rw [ahead, ho, hsteep]
    rfl
  simp only [stepsLeft, hahead, iInf_top]

/-- A run that does not end fires all the timers that the deadline reaches. -/
theorem Awaits.pops {d : Duration} {q : Nat} (h : s.Awaits d) (hnow : s.scheduler.now ≤ deadline)
    (hleft : s.stepsLeft = ⊤) (hdue : ticksDue deadline d s.interval = q) (budget : Nat) :
    Session.pops deadline budget s = min q budget := by
  obtain ⟨m, hm⟩ := h.beats budget hnow
  have hcount := hm.count
  rw [hdue, hleft, min_eq_right le_top, ← (Nat.mono_cast (α := ℕ∞)).map_min] at hcount
  rw [Session.pops, hm.fired]
  exact_mod_cast hcount

/-- Such a run settles in the end, although its clock is not moved on at one go. -/
theorem Awaits.settles {d : Duration} {q budget : Nat} (h : s.Awaits d)
    (hnow : s.scheduler.now ≤ deadline) (hleft : s.stepsLeft = ⊤)
    (hdue : ticksDue deadline d s.interval = q) (hbudget : budget ≤ q) :
    ∃ n es s', Settles deadline n s ((Session.fireUntil deadline budget s).value ++ es) s' := by
  have hpops := h.pops hnow hleft hdue
  have hsettles := settles_of_lt ((hpops (q + 1)).trans_lt (by omega))
  obtain ⟨_, es, -, hes, _⟩ :=
    (settles_iff_of_stopped ((hpops budget).trans (min_eq_right hbudget))).mp hsettles
  rw [hes] at hsettles
  exact ⟨_, es, _, hsettles⟩

/-- The objective that falls to the left at the same rate everywhere. -/
def leftSlope : Objective Float := .fixed 0.0 ⟨1.0, 0.0⟩ ⟨0.0, 0.0, 0.0, 0.0⟩

/-- Two and a half milliseconds of a run with a tick in each, cut after one and a half; and twenty
thousand nanoseconds of a run with a tick in each that does not converge, for which one movement of
the clock is not enough. -/
theorem runs_cut_up :
    (∃ (s₀ : Session Float VirtualClock Xoshiro)
      (r : Reply (List (Answer Float)) Float VirtualClock Xoshiro),
      bundled .default ⟨25.0, 15.0⟩ (Xoshiro.ofSeed 7) = .ok s₀ ∧
      s₀.play [.run (.ofNanos 1000000)] = .ok r ∧
      r.next.popped (.ofNanos 1500000 + .ofNanos 1000000) = [⟨0⟩, ⟨1⟩] ∧
      (r.next.advanceClock (.ofNanos 1500000 + .ofNanos 1000000)).value =
        (r.next.advanceClock (.ofNanos 1500000)).value ++
          ((r.next.advanceClock (.ofNanos 1500000)).next.advanceClock (.ofNanos 1000000)).value) ∧
    ∃ (s₀ : Session Float VirtualClock Xoshiro)
      (r : Reply (List (Answer Float)) Float VirtualClock Xoshiro),
      Session.new leftSlope .default .origin .new (Xoshiro.ofSeed 7) = .ok s₀ ∧
      s₀.play [.run (.ofNanos 1)] = .ok r ∧
      (r.next.popped (.ofNanos 20000)).length = maxTicksPerAdvance ∧
      ∃ n es s', Settles (.ofNanos 20000) n r.next
          ((r.next.advanceClock (.ofNanos 20000)).value ++ es) s' ∧
        Resumes (.ofNanos 20000) (r.next.advanceClock (.ofNanos 20000)).next es s' := by
  constructor
  · refine exists_played (opened_bundled Config.made_default)
      (fun _ r => r.next.popped (.ofNanos 1500000 + .ofNanos 1000000) = [⟨0⟩, ⟨1⟩]) rfl rfl
      (by decide +kernel) ?_
    intro s₀ r _ _ hpopped
    exact ⟨hpopped, ((elapsed_time_can_be_cut r.next).1 _ _ (by rw [hpopped]; decide)).1⟩
  · refine exists_played (.new Config.made_default)
      (fun _ r => r.next.Awaits (.ofNanos 1) ∧ r.next.interval = .ofNanos 1 ∧
        r.next.scheduler.now + .ofNanos 20000 = .ofNanos 20000 ∧
        r.next.objective = leftSlope ∧ r.next.config = .default) rfl rfl
      ⟨⟨rfl, ⟨⟨0⟩, rfl, by decide +kernel⟩, by decide +kernel, by decide +kernel⟩,
        by decide +kernel, by decide +kernel, rfl, rfl⟩ ?_
    rintro s₀ r - - ⟨hawaits, hinterval, hdeadline, hobjective, hconfig⟩
    have hnow : r.next.scheduler.now ≤ .ofNanos 20000 := hdeadline ▸ Duration.le_add _ _
    have hleft : r.next.stepsLeft = ⊤ :=
      stepsLeft_fixed hobjective (by rw [hconfig]; decide +kernel)
    have hdue : ticksDue (.ofNanos 20000) (.ofNanos 1) r.next.interval = (20000 : ℕ) := by
      rw [hinterval, ticksDue, if_neg (by decide), if_neg (by decide)]
      rfl
    have hstop : (r.next.popped (.ofNanos 20000)).length = maxTicksPerAdvance := by
      rw [popped, hdeadline]
      exact hawaits.pops hnow hleft hdue maxTicksPerAdvance
    have hadvance : r.next.advanceClock (.ofNanos 20000) =
        fireUntil (.ofNanos 20000) maxTicksPerAdvance r.next := by
      rw [advanceClock, show Scheduler.now r.next.scheduler = r.next.scheduler.now from rfl,
        hdeadline]
    obtain ⟨n, es, s', hsettles⟩ := hawaits.settles hnow hleft hdue
      (by decide : maxTicksPerAdvance ≤ 20000)
    rw [← hadvance] at hsettles
    have hiff := (elapsed_time_can_be_cut r.next).2 _ hstop es s'
    rw [hdeadline] at hiff
    exact ⟨hstop, n, es, s', hsettles, hiff.mpr ⟨n, hsettles⟩⟩

end Session

end Downhill

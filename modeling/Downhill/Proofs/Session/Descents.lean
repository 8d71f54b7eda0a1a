import Downhill.Proofs.Session.Coherence

/-! # A descent is guarded iteration of single steps

A descent interrupts a run and then takes single steps, asking before each of them whether the
threshold has been met and whether it may take one more, and after each of them whether its observer
wants to stop.  It also provides for a step that is refused.

* `Observer.watch`, `Observer.answers`, `Observer.recording`: an observer that is shown some events,
  and one that remembers them.
* `Session.GuardedSteps`: the loop as a relation with one rule for each way in which it can go on or
  end.  There is no rule for a refused step.  `guardedSteps_stepUntil`: on a session that does not
  run, the loop follows these rules.
* `descend_is_guarded_steps`: what a descent leaves behind and answers, in terms of single steps.
* `GuardedSteps.append`, `descend_in_two_goes`: a descent that its observer lets pass can be
  interrupted at its limit and resumed.
-/

namespace Downhill

variable {α σ γ ω : Type}

/-! ## 1. Observers -/

namespace Observer

/-- The state of an observer that has been shown some events. -/
def watch (observe : Observer ω α) (w : ω) (es : List (Event α)) : ω :=
  es.foldl (fun w e => (observe w e).1) w

/-- Whether it wants to stop, for each of the events that it is shown. -/
def answers (observe : Observer ω α) : ω → List (Event α) → List Bool
  | _, [] => []
  | w, e :: es => (observe w e).2 :: observe.answers (observe w e).1 es

/-- The observer that does the same and remembers the events it is shown, the first one first. -/
def recording (observe : Observer ω α) : Observer (ω × List (Event α)) α :=
  fun w e => (((observe w.1 e).1, w.2 ++ [e]), (observe w.1 e).2)

end Observer

namespace Session

section Loop

variable [Scalar α] [Scheduler σ]

/-! ## 2. The loop -/

/-- At most `limit` single steps from a session, under an observer in a given state: the events they
produce, how they end, the last state of the observer and the session after them.

They end once the threshold has been met, when no further step is allowed, or with a step on which
the observer stops; a step that the observer lets pass is followed by the others. -/
inductive GuardedSteps (observe : Observer ω α) :
    Nat → ω → Session α σ γ → List (Event α) → Ending → ω → Session α σ γ → Prop where
  | met {limit : Nat} {w : ω} {s : Session α σ γ} (hm : s.mode = .converged) :
      GuardedSteps observe limit w s [] .converged w s
  | spent {w : ω} {s : Session α σ γ} (hm : s.mode.acceptsManualStep = true) :
      GuardedSteps observe 0 w s [] .maxSteps w s
  | stop {limit : Nat} {w : ω} {s : Session α σ γ} (hm : s.mode.acceptsManualStep = true)
      (hw : (observe w s.nextEvent).2 = true) :
      GuardedSteps observe (limit + 1) w s [s.nextEvent] .stoppedByObserver
        (observe w s.nextEvent).1 s.advance.next
  | pass {limit : Nat} {w w' : ω} {s s' : Session α σ γ} {es : List (Event α)} {ending : Ending}
      (hm : s.mode.acceptsManualStep = true) (hw : (observe w s.nextEvent).2 = false)
      (h : GuardedSteps observe limit (observe w s.nextEvent).1 s.advance.next es ending w' s') :
      GuardedSteps observe (limit + 1) w s (s.nextEvent :: es) ending w' s'

/-- A step begins no run. -/
theorem mode_advance_ne_running {s : Session α σ γ} (hm : s.mode ≠ .running) :
    s.advance.next.mode ≠ .running := by
  rw [mode_advance]
  split
  · simp
  · exact hm

theorem mode_step_ne_running {s : Session α σ γ} (hm : s.mode ≠ .running) :
    s.step.next.mode ≠ .running := by
  rcases s.step_cases with ⟨_, h⟩ | ⟨_, h⟩
  · rw [h]; exact mode_advance_ne_running hm
  · rw [h]; exact hm

theorem perform_step [WordSource γ] {s : Session α σ γ} (hm : s.mode.acceptsManualStep = true) :
    s.perform .step = .ok ⟨.step (some s.nextEvent), s.advance.next, s.advance.notes⟩ := by
  rw [perform, step_eq hm]
  rfl

/-- **The loop follows the rules** on a session that does not run, and so no step is refused.  By
induction on the steps it may take. -/
theorem guardedSteps_stepUntil (observe : Observer ω α) :
    ∀ (limit : Nat) (w : ω) {s : Session α σ γ}, s.mode ≠ .running →
      let course := (s.stepUntil observe limit w).value
      ∃ es, es.length = course.steps ∧
        GuardedSteps observe limit w s es course.ending course.watched
          (s.stepUntil observe limit w).next
  | limit, w, s, hm => by
    rcases Mode.converged_or_accepts hm with hc | ha
    · rw [stepUntil_of_converged hc]
      exact ⟨[], rfl, .met hc⟩
    · cases limit with
      | zero =>
        rw [stepUntil_zero (Mode.acceptsManualStep_iff.mp ha).2]
        exact ⟨[], rfl, .spent ha⟩
      | succ limit =>
        cases hw : (observe w s.nextEvent).2 with
        | true =>
          rw [stepUntil_stop ha hw]
          exact ⟨[s.nextEvent], rfl, .stop ha hw⟩
        | false =>
          rw [stepUntil_succ ha hw]
          obtain ⟨es, hlength, hrest⟩ := guardedSteps_stepUntil observe limit
            (observe w s.nextEvent).1 (mode_advance_ne_running hm)
          exact ⟨s.nextEvent :: es, congrArg (· + 1) hlength, .pass ha hw hrest⟩

namespace GuardedSteps

variable {observe : Observer ω α} {limit limit' : Nat} {w w' w'' : ω} {s s' s'' : Session α σ γ}
  {es es' : List (Event α)} {ending ending' : Ending}

/-- The rules lead to one end. -/
theorem unique (h : GuardedSteps observe limit w s es ending w' s')
    (h' : GuardedSteps observe limit w s es' ending' w'' s'') :
    es = es' ∧ ending = ending' ∧ w' = w'' ∧ s' = s'' := by
  induction h generalizing es' with
  | met hm =>
    cases h' with
    | met _ => exact ⟨rfl, rfl, rfl, rfl⟩
    | spent ha | stop ha _ | pass ha _ _ => exact absurd hm (Mode.acceptsManualStep_iff.mp ha).2
  | spent ha =>
    cases h' with
    | met hm => exact absurd hm (Mode.acceptsManualStep_iff.mp ha).2
    | spent _ => exact ⟨rfl, rfl, rfl, rfl⟩
  | stop ha hw =>
    cases h' with
    | met hm => exact absurd hm (Mode.acceptsManualStep_iff.mp ha).2
    | stop _ _ => exact ⟨rfl, rfl, rfl, rfl⟩
    | pass _ hw' _ => rw [hw] at hw'; cases hw'
  | pass ha hw _ ih =>
    cases h' with
    | met hm => exact absurd hm (Mode.acceptsManualStep_iff.mp ha).2
    | stop _ hw' => rw [hw] at hw'; cases hw'
    | pass _ _ h' =>
      obtain ⟨rfl, hrest⟩ := ih h'
      exact ⟨rfl, hrest⟩

theorem length_le (h : GuardedSteps observe limit w s es ending w' s') : es.length ≤ limit := by
  induction h with
  | met _ => exact Nat.zero_le _
  | spent _ => exact Nat.le_refl 0
  | stop _ _ => exact Nat.succ_le_succ (Nat.zero_le _)
  | pass _ _ _ ih => exact Nat.succ_le_succ ih

/-- The limit is only reported where it was met. -/
theorem length_eq (h : GuardedSteps observe limit w s es .maxSteps w' s') : es.length = limit := by
  generalize hending : Ending.maxSteps = ending at h
  induction h with
  | met _ | stop _ _ => cases hending
  | spent _ => rfl
  | pass _ _ _ ih => exact congrArg (· + 1) (ih hending)

/-- The observer is shown the events in order. -/
theorem watch_eq (h : GuardedSteps observe limit w s es ending w' s') :
    w' = observe.watch w es := by
  induction h with
  | met _ | spent _ | stop _ _ => rfl
  | pass _ _ _ ih => exact ih

/-- It lets all of them pass but possibly the last one. -/
theorem answers_eq (h : GuardedSteps observe limit w s es ending w' s') :
    observe.answers w es = List.replicate es.length false ∧ ending ≠ .stoppedByObserver ∨
      ∃ n, observe.answers w es = List.replicate n false ++ [true] ∧
        ending = .stoppedByObserver := by
  induction h with
  | met _ | spent _ => exact Or.inl ⟨rfl, by simp⟩
  | stop _ hw => exact Or.inr ⟨0, by simp [Observer.answers, hw], rfl⟩
  | pass _ hw _ ih =>
    rw [Observer.answers, hw]
    rcases ih with ⟨hpass, hending⟩ | ⟨n, hstop, hending⟩
    · exact Or.inl ⟨congrArg (false :: ·) hpass, hending⟩
    · exact Or.inr ⟨n + 1, congrArg (false :: ·) hstop, hending⟩

theorem dropLast_answers (h : GuardedSteps observe limit w s es ending w' s') :
    ∀ stops ∈ (observe.answers w es).dropLast, stops = false := by
  rcases h.answers_eq with ⟨hpass, -⟩ | ⟨n, hstop, -⟩
  · rw [hpass, List.dropLast_replicate]
    exact fun _ => List.eq_of_mem_replicate
  · rw [hstop, List.dropLast_concat]
    exact fun _ => List.eq_of_mem_replicate

theorem stopped_iff (h : GuardedSteps observe limit w s es ending w' s') :
    ending = .stoppedByObserver ↔ (observe.answers w es).getLast? = some true := by
  rcases h.answers_eq with ⟨hpass, hending⟩ | ⟨n, hstop, hending⟩
  · rw [hpass, List.getLast?_replicate]
    split <;> simp [hending]
  · simp [hstop, hending]

/-- Of two reasons to end on the same step the observer's comes first, and having converged comes
before having met the limit. -/
theorem ending_eq (h : GuardedSteps observe limit w s es ending w' s') :
    ending = if (observe.answers w es).getLast? = some true then .stoppedByObserver
      else if s'.mode = .converged then .converged else .maxSteps := by
  simp only [← h.stopped_iff]
  split
  · assumption
  · rename_i hending
    induction h with
    | met hm => rw [if_pos hm]
    | spent ha => rw [if_neg (Mode.acceptsManualStep_iff.mp ha).2]
    | stop _ _ => exact absurd rfl hending
    | pass _ _ _ ih => exact ih hending

theorem mode_ne_running (h : GuardedSteps observe limit w s es ending w' s')
    (hm : s.mode ≠ .running) : s'.mode ≠ .running := by
  induction h with
  | met _ | spent _ => exact hm
  | stop _ _ => exact mode_advance_ne_running hm
  | pass _ _ _ ih => exact ih (mode_advance_ne_running hm)

/-- The path grows by the points of the events, and the count by their number. -/
theorem grows (h : GuardedSteps observe limit w s es ending w' s') :
    s'.iterationCount = s.iterationCount + es.length ∧
      s'.trajectory = s.trajectory ++ es.map Event.point := by
  induction h with
  | met _ | spent _ => simp
  | stop _ _ => simp
  | pass _ _ _ ih =>
    obtain ⟨hcount, hpath⟩ := ih
    rw [hcount, hpath, iterationCount_advance, trajectory_advance]
    simp [Nat.add_assoc, Nat.add_comm 1]

/-- An observer that remembers what it is shown changes nothing, and it is shown the events. -/
theorem recording (h : GuardedSteps observe limit w s es ending w' s') :
    ∀ seen, GuardedSteps observe.recording limit (w, seen) s es ending (w', seen ++ es) s' := by
  induction h with
  | met hm => intro seen; rw [List.append_nil]; exact .met hm
  | spent ha => intro seen; rw [List.append_nil]; exact .spent ha
  | stop ha hw => intro seen; exact .stop (w := (_, seen)) ha hw
  | @pass _ _ _ s _ es _ ha hw _ ih =>
    intro seen
    have hrest := ih (seen ++ [s.nextEvent])
    rw [List.append_assoc] at hrest
    exact .pass (w := (_, seen)) ha hw hrest

/-- **A loop can be interrupted at its limit and resumed**, unless the observer has stopped it. -/
theorem append (h : GuardedSteps observe limit w s es ending w' s')
    (hending : ending ≠ .stoppedByObserver)
    (h' : GuardedSteps observe limit' w' s' es' ending' w'' s'') :
    GuardedSteps observe (limit + limit') w s (es ++ es') ending' w'' s'' := by
  induction h with
  | met hm =>
    cases h' with
    | met _ => exact .met hm
    | spent ha | stop ha _ | pass ha _ _ => exact absurd hm (Mode.acceptsManualStep_iff.mp ha).2
  | spent _ => rw [Nat.zero_add]; exact h'
  | stop _ _ => exact absurd rfl hending
  | pass ha hw _ ih =>
    rw [Nat.succ_add]
    exact .pass ha hw (ih hending h')

/-- The events are those of as many single steps in a row, each of which is taken. -/
theorem play_eq [WordSource γ] (h : GuardedSteps observe limit w s es ending w' s') :
    s.play (List.replicate es.length .step) =
      .ok ⟨es.map fun e => .step (some e), s', (s.stepUntil observe limit w).notes⟩ := by
  induction h with
  | met hm => rw [stepUntil_of_converged hm]; rfl
  | spent ha => rw [stepUntil_zero (Mode.acceptsManualStep_iff.mp ha).2]; rfl
  | stop ha hw =>
    rw [stepUntil_stop ha hw, ← List.append_nil (Session.advance _).notes]
    exact play_cons_eq_ok_iff.mpr ⟨_, _, perform_step ha, rfl, rfl⟩
  | pass ha hw _ ih =>
    rw [stepUntil_succ ha hw]
    exact play_cons_eq_ok_iff.mpr ⟨_, _, perform_step ha, ih, rfl⟩

end GuardedSteps

/-! ## 3. One descent -/

omit [Scalar α] in
/-- A run is interrupted first. -/
theorem mode_pause (s : Session α σ γ) : s.pause.next.mode ≠ .running := by
  unfold pause
  split
  · assumption
  · simp

omit [Scalar α] in
theorem pause_of_ne {s : Session α σ γ} (hm : s.mode ≠ .running) : s.pause.next = s := by
  rw [pause, if_pos hm]

/-- The events that the observer of a descent is shown. -/
def shown (observe : Observer ω α) (limit : Nat) (w : ω) (s : Session α σ γ) : List (Event α) :=
  (s.descend observe.recording limit (w, [])).value.2.2

/-- A descent follows the rules from the interrupted session on. -/
theorem guardedSteps_descend (observe : Observer ω α) (limit : Nat) (w : ω) (s : Session α σ γ) :
    let r := s.descend observe limit w
    (s.shown observe limit w).length = r.value.1.steps ∧
      GuardedSteps observe limit w s.pause.next (s.shown observe limit w) r.value.1.ending
        r.value.2 r.next := by
  obtain ⟨es, hlength, h⟩ := guardedSteps_stepUntil observe limit w s.mode_pause
  obtain ⟨es', -, h'⟩ := guardedSteps_stepUntil observe.recording limit (w, []) s.mode_pause
  have hshown : s.shown observe limit w = es := by
    obtain ⟨-, -, hwatched, -⟩ := h'.unique (h.recording [])
    exact congrArg Prod.snd hwatched
  rw [hshown]
  exact ⟨hlength, h⟩

omit [Scalar α] in
/-- Interrupting a run accepts nothing and takes nothing back. -/
theorem grows_pause (s : Session α σ γ) :
    s.pause.next.iterationCount = s.iterationCount ∧ s.pause.next.trajectory = s.trajectory := by
  unfold pause
  split <;> exact ⟨rfl, rfl⟩

end Loop

section Reached

variable [Scalar α] [Scheduler σ] [WordSource γ]

/-- After any number of single steps, a session that did not run before them has converged or takes
one more. -/
theorem converged_or_steps : ∀ (k : Nat) {s : Session α σ γ} {r : Reply (List (Answer α)) α σ γ},
    s.mode ≠ .running → s.play (List.replicate k .step) = .ok r →
      r.next.mode = .converged ∨ ∃ e, r.next.step.value = some e
  | 0, s, r, hm, h => by
    cases h
    rcases Mode.converged_or_accepts hm with hc | ha
    · exact Or.inl hc
    · exact Or.inr ⟨_, congrArg Reply.value (step_eq ha)⟩
  | k + 1, s, r, hm, h => by
    obtain ⟨_, others, ⟨⟩, hothers, rfl⟩ := play_cons_eq_ok_iff.mp h
    exact converged_or_steps (r := others) k (mode_step_ne_running hm) hothers

/-- **A descent is guarded iteration of single steps.**

A descent of a reachable session leaves it, and takes the notes, as an interruption does that is
followed by as many single steps as the answer says, each of which is taken.  The observer is shown
the events of these steps, once each and in order, and lets all of them pass but possibly the last
one.  The descent ends as stopped by the observer exactly if it stopped on the last one, otherwise
as converged exactly if the session has converged, and otherwise because as many steps were taken
as it may take.  It never ends because a step is refused: wherever single steps lead from the
interrupted session, it has converged or takes one more.  Count and path grow by the steps, the
answer holds what the session reads, and the session neither runs nor waits for a timer. -/
theorem descend_is_guarded_steps {scheduler : σ} {s : Session α σ γ} (hs : Reachable scheduler s)
    (observe : Observer ω α) (limit : Nat) (w : ω) :
    let r := s.descend observe limit w
    let n := r.value.1.steps
    let shown := s.shown observe limit w
    let answers := observe.answers w shown
    shown.length = n ∧ n ≤ limit ∧
    s.play (.pause :: List.replicate n .step) =
      .ok ⟨.done :: shown.map (fun e => .step (some e)), r.next, r.notes⟩ ∧
    r.value.2 = observe.watch w shown ∧
    (∀ stops ∈ answers.dropLast, stops = false) ∧
    r.value.1.ending = (if answers.getLast? = some true then .stoppedByObserver
      else if r.next.mode = .converged then .converged else .maxSteps) ∧
    (r.value.1.ending = .maxSteps → n = limit) ∧
    (∀ k r', s.play (.pause :: List.replicate k .step) = .ok r' →
      r'.next.mode = .converged ∨ ∃ e, r'.next.step.value = some e) ∧
    r.next.iterationCount = s.iterationCount + n ∧
    r.next.trajectory = s.trajectory ++ shown.map Event.point ∧
    r.value.1 = ⟨r.value.1.ending, r.next.iterate, r.next.functionValue, r.next.gradientNorm, n⟩ ∧
    r.next.mode ≠ .running ∧ r.next.pendingTimer = none := by
  intro r n shown answers
  obtain ⟨hlength, h⟩ := guardedSteps_descend observe limit w s
  obtain ⟨hcount, hpath⟩ := h.grows
  obtain ⟨hcount', hpath'⟩ := s.grows_pause
  rw [hcount', hlength] at hcount
  rw [hpath'] at hpath
  have hplay : s.play (.pause :: List.replicate n .step) =
      .ok ⟨.done :: shown.map (fun e => .step (some e)), r.next, r.notes⟩ := by
    have hsteps := h.play_eq
    rw [hlength] at hsteps
    exact play_cons_eq_ok_iff.mpr ⟨_, _, rfl, hsteps, rfl⟩
  have hmode := h.mode_ne_running s.mode_pause
  have hcoherent : r.next.Coherent := hs.coherent.linked (linked_turns hplay)
  have hlimit : r.value.1.ending = .maxSteps → n = limit := by
    intro hending
    rw [hending] at h
    exact hlength.symm.trans h.length_eq
  have honward : ∀ k r', s.play (.pause :: List.replicate k .step) = .ok r' →
      r'.next.mode = .converged ∨ ∃ e, r'.next.step.value = some e := by
    intro k r' hr'
    obtain ⟨_, others, ⟨⟩, hothers, rfl⟩ := play_cons_eq_ok_iff.mp hr'
    exact converged_or_steps (r := others) k s.mode_pause hothers
  have hle : n ≤ limit := Nat.le_trans (Nat.le_of_eq hlength.symm) h.length_le
  exact ⟨hlength, hle, hplay, h.watch_eq, h.dropLast_answers, h.ending_eq, hlimit,
    honward, hcount, hpath, rfl, hmode, hcoherent.timer_eq_none hmode⟩

/-- A full Newton step is next in a run. -/
def newtonRun : List (Command Float) := [.run (.ofNanos 1000000), .setRule (.dampedNewton 1.0)]

/-- The observer that counts the events and stops on the one that has converged. -/
def stopsConverged : Observer Nat Float := fun seen e => (seen + 1, e.converged)

/-- A descent with three reasons to end on its only step. -/
theorem descend_with_reasons_to_end :
    ∃ (s₀ : Session Float VirtualClock Xoshiro)
      (r₀ : Reply (List (Answer Float)) Float VirtualClock Xoshiro),
      bundled .default ⟨25.0, 15.0⟩ (Xoshiro.ofSeed 7) = .ok s₀ ∧ s₀.play newtonRun = .ok r₀ ∧
      r₀.next.mode = .running ∧
      let r := r₀.next.descend stopsConverged 1 0
      r.next.mode = .converged ∧ r.value.1.ending = .stoppedByObserver ∧ r.value.1.steps = 1 ∧
      r.value.2 = 1 ∧ r.next.iterationCount = 1 ∧ r.next.pendingTimer = none ∧
      ∃ e, r₀.next.play [.pause, .step] = .ok ⟨[.done, .step (some e)], r.next, r.notes⟩ := by
  refine exists_played (opened_bundled Config.made_default)
    (fun _ r₀ =>
      let r := r₀.next.descend stopsConverged 1 0
      r₀.next.mode = .running ∧ r₀.next.iterationCount = 0 ∧ r.next.mode = .converged ∧
        r.value.1.ending = .stoppedByObserver ∧ r.value.1.steps = 1 ∧ r.value.2 = 1)
    rfl rfl (by decide +kernel) ?_
  rintro s₀ r₀ hs hr ⟨hm, hcount, hmode, hending, hsteps, hwatched⟩
  obtain ⟨hlength, -, hplay, -, -, -, -, -, hgrows, -, -, -, htimer⟩ :=
    descend_is_guarded_steps ⟨s₀, _, r₀, hs, hr, rfl⟩ stopsConverged 1 0
  rw [hsteps] at hlength hplay hgrows
  obtain ⟨e, he⟩ := List.length_eq_one_iff.mp hlength
  rw [he] at hplay
  rw [hcount] at hgrows
  exact ⟨hm, hmode, hending, hsteps, hwatched, hgrows, htimer, e, hplay⟩

end Reached

/-! ## 4. Two descents in a row -/

/-- **A descent can be interrupted at its limit and resumed.**

If the observer does not stop a descent of at most `n` steps, then this descent and a second one of
at most `m` steps, with the observer as the first one left it, do together what one descent of at
most `n + m` steps does: they leave the same session, show the observer the same events in the same
order and leave it in the same state, give the same answer in the end, and take as many steps.  This
holds of every session, also of one that runs or has converged. -/
theorem descend_in_two_goes [Scalar α] [Scheduler σ] (observe : Observer ω α) (n m : Nat) (w : ω)
    (s : Session α σ γ)
    (hending : (s.descend observe n w).value.1.ending ≠ .stoppedByObserver) :
    let first := s.descend observe n w
    let second := first.next.descend observe m first.value.2
    let whole := s.descend observe (n + m) w
    second.next = whole.next ∧
      s.shown observe n w ++ first.next.shown observe m first.value.2 =
        s.shown observe (n + m) w ∧
      second.value.2 = whole.value.2 ∧
      second.value.1 = { whole.value.1 with steps := second.value.1.steps } ∧
      first.value.1.steps + second.value.1.steps = whole.value.1.steps := by
  intro first second whole
  obtain ⟨hlength₁, h₁⟩ := guardedSteps_descend observe n w s
  obtain ⟨hlength₂, h₂⟩ := guardedSteps_descend observe m first.value.2 first.next
  obtain ⟨hlength, h⟩ := guardedSteps_descend observe (n + m) w s
  rw [pause_of_ne (h₁.mode_ne_running s.mode_pause)] at h₂
  obtain ⟨hshown, hends, hwatched, hnext⟩ := (h₁.append hending h₂).unique h
  refine ⟨hnext, hshown, hwatched, ?_, ?_⟩
  · have hsecond : second.value.1 = ⟨second.value.1.ending, second.next.iterate,
        second.next.functionValue, second.next.gradientNorm, second.value.1.steps⟩ := rfl
    rw [hsecond, hends, hnext]
    rfl
  · rw [← hlength₁, ← hlength₂, ← hlength, ← hshown, List.length_append]

/-- The observer that counts the events and lets all of them pass. -/
def countsAll : Observer Nat Float := fun seen _ => (seen + 1, false)

/-- The first descent interrupts a run and converges on its only step, the second one has nothing
left to do. -/
theorem descend_again_on_converged :
    ∃ (s₀ : Session Float VirtualClock Xoshiro)
      (r₀ : Reply (List (Answer Float)) Float VirtualClock Xoshiro),
      bundled .default ⟨25.0, 15.0⟩ (Xoshiro.ofSeed 7) = .ok s₀ ∧ s₀.play newtonRun = .ok r₀ ∧
      let first := r₀.next.descend countsAll 1 0
      let second := first.next.descend countsAll 4 first.value.2
      let whole := r₀.next.descend countsAll 5 0
      first.value.1.ending = .converged ∧ second.value.1.steps = 0 ∧
      second.next = whole.next ∧ second.value.2 = whole.value.2 ∧ whole.value.1.steps = 1 := by
  refine exists_played (opened_bundled Config.made_default)
    (fun _ r₀ =>
      let first := r₀.next.descend countsAll 1 0
      first.value.1.ending = .converged ∧ first.value.1.steps = 1 ∧
        (first.next.descend countsAll 4 first.value.2).value.1.steps = 0)
    rfl rfl (by decide +kernel) ?_
  rintro s₀ r₀ - - ⟨hending, hfirst, hsecond⟩
  obtain ⟨hnext, -, hwatched, -, hsteps⟩ :=
    descend_in_two_goes countsAll 1 4 0 r₀.next (by rw [hending]; simp)
  rw [hfirst, hsecond] at hsteps
  exact ⟨hending, hsecond, hnext, hwatched, hsteps.symm⟩

end Session

end Downhill

import Downhill.Proofs.Binary64.Limits
import Downhill.Proofs.Session.Reachable
import Downhill.Random.Xoshiro

/-! # Refused calls leave no trace

A call can fail to take effect in two ways.  The value it carries may not be proper, and then it is
refused with a fault that names the value; or the session may be in no mode for it, and then it is
declined without a word.  Either way the session is the same afterwards, in all its parts, those
included that no reading shows: interval, source of random words, clock and pending timers.

* `Command.Proper`: the values that are in order, told by their exact value and not by the
  comparisons of rounded numbers.  An undefined or infinite value has no place there, and a negative
  zero is zero.
* `Command.check_eq_ok_iff`: the checks accept exactly the proper values.
* `Session.Declines`: the calls that do not fit the mode.
* `Session.refused_calls_leave_no_trace`: what is refused, and that it changes nothing.
-/

namespace Downhill

open Binary64

/-! ## 1. Proper values -/

/-- The number is finite and its exact value is positive. -/
def Binary64.Positive (x : Float) : Prop := x.isFinite = true ∧ 0 < toRat x

/-- The step size is positive, the damping factor positive and at most one. -/
def StepRule.Proper : StepRule Float → Prop
  | .gradientDescent stepSize => Positive stepSize
  | .dampedNewton damping => Positive damping ∧ toRat damping ≤ 1

/-- The radius is positive, the curvature finite. -/
def Constraint.Proper : Constraint Float → Prop
  | .unconstrained => True
  | .disk radius => Positive radius
  | .parabola curvature => curvature.isFinite = true

/-- The value that the command carries, if it carries one, is in order. -/
def Command.Proper : Command Float → Prop
  | .run interval => interval ≠ .zero
  | .setRule rule => rule.Proper
  | .setConstraint constraint => constraint.Proper
  | .setThreshold threshold => Positive threshold
  | _ => True

theorem Binary64.positive_iff {x : Float} : Positive x ↔ x.isFinite = true ∧ 0.0 < x := by
  refine and_congr_right fun hx => ?_
  rw [lt_iff_toRat rfl hx, toRat_zero]

/-- What is positive and at most one is finite without being tested for it. -/
theorem Binary64.positive_and_le_one_iff {x : Float} :
    (Positive x ∧ toRat x ≤ 1) ↔ 0.0 < x ∧ x ≤ 1.0 := by
  constructor
  · rintro ⟨hx, hle⟩
    refine ⟨(positive_iff.mp hx).2, ?_⟩
    rwa [le_iff_toRat hx.1 rfl, toRat_one]
  · rintro ⟨hpos, hle⟩
    have hx : x.isFinite = true :=
      finite_of_between (a := 0.0) (b := 1.0) rfl rfl (le_of_lt hpos) hle
    refine ⟨positive_iff.mpr ⟨hx, hpos⟩, ?_⟩
    rwa [le_iff_toRat hx rfl, toRat_one] at hle

/-! ## 2. The checks -/

/-- The check of the value that the command carries. -/
def Command.check {α : Type} [Scalar α] : Command α → Except (InvalidSetting α) Unit
  | .run interval => if interval = .zero then .error (.interval interval) else .ok ()
  | .setRule rule => rule.check
  | .setConstraint constraint => constraint.check
  | .setThreshold threshold => Config.checkThreshold threshold
  | _ => .ok ()

/-- The value that the command carries, as a fault names it. -/
def Command.fault {α : Type} : Command α → Option (InvalidSetting α)
  | .run interval => some (.interval interval)
  | .setRule (.gradientDescent stepSize) => some (.stepSize stepSize)
  | .setRule (.dampedNewton damping) => some (.damping damping)
  | .setConstraint (.disk radius) => some (.radius radius)
  | .setConstraint (.parabola curvature) => some (.curvature curvature)
  | .setThreshold threshold => some (.threshold threshold)
  | _ => none

theorem StepRule.check_eq_ok_iff {rule : StepRule Float} : rule.check = .ok () ↔ rule.Proper := by
  cases rule with
  | gradientDescent stepSize => simp [check, Proper, positive_iff]
  | dampedNewton damping => simp [check, Proper, positive_and_le_one_iff]

theorem Constraint.check_eq_ok_iff {constraint : Constraint Float} :
    constraint.check = .ok () ↔ constraint.Proper := by
  cases constraint with
  | unconstrained => simp [check, Proper]
  | disk radius => simp [check, Proper, positive_iff]
  | parabola curvature => simp [check, Proper]

/-- **The checks accept exactly the proper values.** -/
theorem Command.check_eq_ok_iff {c : Command Float} : c.check = .ok () ↔ c.Proper := by
  cases c with
  | run interval => simp [check, Proper]
  | setRule rule => exact StepRule.check_eq_ok_iff
  | setConstraint constraint => exact Constraint.check_eq_ok_iff
  | setThreshold threshold => exact Config.checkThreshold_eq_ok_iff.trans positive_iff.symm
  | _ => exact iff_of_true rfl trivial

/-- A check fails with the value it was given. -/
theorem Command.fault_of_check {α : Type} [Scalar α] {c : Command α} {e : InvalidSetting α}
    (h : c.check = .error e) : c.fault = some e := by
  cases c with
  | run interval =>
    simp only [check] at h
    split at h <;> cases h
    rfl
  | setRule rule =>
    cases rule <;> simp only [check, StepRule.check] at h <;> split at h <;> cases h <;> rfl
  | setConstraint constraint =>
    cases constraint with
    | unconstrained => cases h
    | disk | parabola =>
      simp only [check, Constraint.check] at h
      split at h <;> cases h
      rfl
  | setThreshold threshold =>
    simp only [check, Config.checkThreshold] at h
    split at h <;> cases h
    rfl
  | _ => cases h

/-! ## 3. Calls -/

theorem Answer.ofSetting_eq_refused_iff {α : Type} {x : Except (InvalidSetting α) Unit}
    {e : InvalidSetting α} : Answer.ofSetting x = .refused e ↔ x = .error e := by
  cases x <;> simp [Answer.ofSetting]

/-- The command takes a step, begins a run or interrupts one, unless it does not fit. -/
def Command.drives {α : Type} : Command α → Bool
  | .step | .run _ | .tick _ | .pause => true
  | _ => false

namespace Session

variable {α σ γ : Type}

/-- The command does not fit the mode of the session, or reports a timer that it does not wait
for. -/
def Declines (s : Session α σ γ) : Command α → Prop
  | .step | .run _ => s.mode = .running ∨ s.mode = .converged
  | .tick timer => s.mode ≠ .running ∨ s.pendingTimer ≠ some timer
  | .pause => s.mode ≠ .running
  | _ => False

variable [Scalar α] [Scheduler σ]

theorem next_step_ne {s : Session α σ γ} : s.advance.next ≠ s := by
  intro h
  have hsize := congrArg (fun s' => s'.path.size) h
  simp at hsize

theorem next_runStep_ne {s : Session α σ γ} : s.runStep.next ≠ s := by
  intro h
  have hsize := congrArg (fun s' => s'.path.size) h
  simp at hsize

/-- A run is answered by the check of its interval, whatever the mode. -/
theorem value_run (s : Session α σ γ) (interval : Duration) :
    (s.run interval).value = Command.check (.run interval) := by
  simp only [run, Command.check]
  split
  · rfl
  · split <;> rfl

variable [WordSource γ]

/-- A call is refused by the check of its value and by nothing else. -/
theorem refused_iff {s : Session α σ γ} {c : Command α} {r : Reply (Answer α) α σ γ}
    (h : s.perform c = .ok r) {e : InvalidSetting α} :
    r.value = .refused e ↔ c.check = .error e := by
  have hsetting {x : Except (InvalidSetting α) Unit} (hx : x = c.check) :
      Answer.ofSetting x = .refused e ↔ c.check = .error e := by
    rw [hx]
    exact Answer.ofSetting_eq_refused_iff
  cases c with
  | run interval => cases h; exact hsetting (s.value_run interval)
  | setRule rule => cases h; exact hsetting (s.value_withSettings _ _)
  | setConstraint constraint => cases h; exact hsetting (s.value_withSettings _ _)
  | setThreshold threshold => cases h; exact hsetting (s.value_withSettings _ _)
  | randomStart =>
    obtain ⟨r', -, rfl⟩ := perform_randomStart h
    exact iff_of_false nofun nofun
  | _ => cases h; exact iff_of_false nofun nofun

/-- **A call that is refused or declined changes nothing.** -/
theorem next_of_declined {s : Session α σ γ} {c : Command α}
    (h : c.check ≠ .ok () ∨ s.Declines c) :
    ∃ r, s.perform c = .ok r ∧ r.next = s ∧ r.value.events = [] := by
  cases c with
  | step =>
    have hm : s.mode.acceptsManualStep = false :=
      Mode.acceptsManualStep_eq_false_iff.mpr (h.resolve_left (absurd rfl))
    exact ⟨_, rfl, by simp [step, hm, Reply.map], by simp [step, hm, Reply.map, Answer.events]⟩
  | run interval =>
    refine ⟨_, rfl, ?_, by simp [Reply.map]⟩
    by_cases hi : interval = .zero
    · simp [run, hi, Reply.map]
    · have hm : s.mode.acceptsManualStep = false :=
        Mode.acceptsManualStep_eq_false_iff.mpr (h.resolve_left fun hne => hne (if_neg hi))
      simp [run, hi, hm, Reply.map]
  | tick timer =>
    have ht : ¬(s.mode = .running ∧ s.timer = some timer) := by
      rw [not_and_or]
      exact h.resolve_left (absurd rfl)
    rcases s.tick_cases timer with ⟨hm, hs, -⟩ | ⟨-, heq⟩
    · exact absurd ⟨hm, hs⟩ ht
    · exact ⟨_, rfl, by simp [heq, Reply.map], by simp [heq, Reply.map, Answer.events]⟩
  | pause =>
    have hm : s.mode ≠ .running := h.resolve_left (absurd rfl)
    exact ⟨_, rfl, by simp [pause, hm, Reply.map], rfl⟩
  | setRule rule | setConstraint constraint | setThreshold threshold =>
    exact ⟨_, rfl, s.next_withSettings_of_ne _ _ (h.resolve_right id), by simp [Reply.map]⟩
  | _ => exact absurd h (not_or.mpr ⟨absurd rfl, id⟩)

/-- **A call that drives the session and is neither refused nor declined changes it.** -/
theorem declined_of_next {s : Session α σ γ} {c : Command α} (hc : c.drives = true)
    {r : Reply (Answer α) α σ γ} (h : s.perform c = .ok r) (hr : r.next = s) :
    c.check ≠ .ok () ∨ s.Declines c := by
  cases c with
  | step =>
    cases h
    rcases s.step_cases with ⟨-, heq⟩ | ⟨hm, -⟩
    · simp only [heq, Reply.map] at hr
      exact absurd hr next_step_ne
    · exact Or.inr (Mode.acceptsManualStep_eq_false_iff.mp hm)
  | run interval =>
    by_cases hi : interval = .zero
    · exact Or.inl (by simp [Command.check, hi])
    · refine Or.inr (Mode.acceptsManualStep_eq_false_iff.mp (Bool.eq_false_iff.mpr fun ha => ?_))
      cases h
      have hmode := congrArg Session.mode hr
      simp only [Reply.map, run, if_neg hi, if_pos ha, wait] at hmode
      exact (Mode.acceptsManualStep_iff.mp ha).1 hmode.symm
  | tick timer =>
    cases h
    rcases s.tick_cases timer with ⟨-, -, heq⟩ | ⟨ht, -⟩
    · simp only [heq, Reply.map] at hr
      exact absurd hr next_runStep_ne
    · exact Or.inr (not_and_or.mp ht)
  | pause =>
    refine Or.inr fun hm => ?_
    cases h
    have hmode := congrArg Session.mode hr
    simp [pause, hm, Reply.map] at hmode
  | _ => cases hc

end Session

/-! ## 4. All of them together -/

namespace Session

/-- **Refused calls leave no trace.**

Whatever state a session is in, it refuses a call exactly if the value that the call carries is not
proper, with the fault that names this value: an interval of zero, a step size, damping factor,
radius or threshold that is not positive or too large, a curvature that is not finite.  A call that
is refused, or declined because of the mode or because it reports another timer, tells of no step
and leaves the session as it was in all its parts, and of the calls that drive a session no other
ones do.  A setting that is accepted takes effect and touches nothing else. -/
theorem refused_calls_leave_no_trace {σ γ : Type} [Scheduler σ] [WordSource γ]
    (s : Session Float σ γ) :
    (∀ (c : Command Float) (r : Reply (Answer Float) Float σ γ), s.perform c = .ok r →
      ((∃ e, r.value = .refused e) ↔ ¬c.Proper) ∧ ∀ e, r.value = .refused e → c.fault = some e) ∧
    (∀ c : Command Float, ¬c.Proper ∨ s.Declines c →
      ∃ r, s.perform c = .ok r ∧ r.next = s ∧ r.value.events = []) ∧
    (∀ (c : Command Float) (r : Reply (Answer Float) Float σ γ), c.drives = true →
      s.perform c = .ok r → r.next = s → ¬c.Proper ∨ s.Declines c) ∧
    (∀ rule : StepRule Float, rule.Proper → (s.setRule rule).value = .ok () ∧
      (s.setRule rule).next = { s with config := { s.config with rule := rule } }) ∧
    (∀ constraint : Constraint Float, constraint.Proper →
      (s.setConstraint constraint).value = .ok () ∧
      (s.setConstraint constraint).next =
        { s with config := { s.config with constraint := constraint } }) ∧
    (∀ threshold : Float, Positive threshold → (s.setThreshold threshold).value = .ok () ∧
      (s.setThreshold threshold).next =
        { s with config := { s.config with threshold := threshold } }) := by
  have hproper (c : Command Float) : c.check ≠ .ok () ↔ ¬c.Proper := Command.check_eq_ok_iff.not
  refine ⟨fun c r h => ⟨?_, fun e he => ?_⟩, fun c h => ?_, fun c r hc h hr => ?_, fun rule h => ?_,
    fun constraint h => ?_, fun threshold h => ?_⟩
  · simp only [refused_iff h, ← hproper]
    cases c.check <;> simp
  · exact Command.fault_of_check ((refused_iff h).mp he)
  · rw [← hproper] at h
    exact next_of_declined h
  · rw [← hproper]
    exact declined_of_next hc h hr
  · have hcheck : rule.check = .ok () := StepRule.check_eq_ok_iff.mpr h
    exact ⟨(s.value_withSettings _ _).trans hcheck, s.next_withSettings_of_ok _ _ hcheck⟩
  · have hcheck : constraint.check = .ok () := Constraint.check_eq_ok_iff.mpr h
    exact ⟨(s.value_withSettings _ _).trans hcheck, s.next_withSettings_of_ok _ _ hcheck⟩
  · have hcheck : Config.checkThreshold threshold = .ok () :=
      Config.checkThreshold_eq_ok_iff.mpr (positive_iff.mp h)
    exact ⟨(s.value_withSettings _ _).trans hcheck, s.next_withSettings_of_ok _ _ hcheck⟩

/-- Calls that a session does not follow while it waits for its first timer. -/
def unfitting : List (Command Float) :=
  [.step, .run (.ofNanos 2000000), .run .zero, .tick ⟨1⟩, .setRule (.dampedNewton (0.0 / 0.0)),
    .setRule (.gradientDescent (1.0 / 0.0)), .setConstraint (.disk (-0.0)), .setThreshold 0.0]

/-- They leave a run of the bundled session as it is. -/
theorem run_left_alone :
    ∃ (s₀ : Session Float VirtualClock Xoshiro)
      (r : Reply (List (Answer Float)) Float VirtualClock Xoshiro),
      bundled .default ⟨25.0, 15.0⟩ (Xoshiro.ofSeed 7) = .ok s₀ ∧
      s₀.play [.run (.ofNanos 1000000)] = .ok r ∧
      r.next.mode = .running ∧ r.next.pendingTimer = some ⟨0⟩ ∧
      ∀ c ∈ unfitting, ∃ r', r.next.perform c = .ok r' ∧ r'.next = r.next := by
  refine exists_played (opened_bundled Config.made_default)
    (fun _ r => r.next.mode = .running ∧ r.next.pendingTimer = some ⟨0⟩) rfl rfl ⟨rfl, rfl⟩ ?_
  rintro s₀ r - - ⟨hm, ht⟩
  refine ⟨hm, ht, fun c hc => ?_⟩
  have hcall : ¬c.Proper ∨ r.next.Declines c := by
    rw [← Command.check_eq_ok_iff]
    simp only [unfitting, List.mem_cons, List.not_mem_nil, or_false] at hc
    rcases hc with rfl | rfl | rfl | rfl | rfl | rfl | rfl | rfl
    · exact Or.inr (Or.inl hm)
    · exact Or.inr (Or.inl hm)
    · exact Or.inl (by decide +kernel)
    · exact Or.inr (Or.inr (by rw [ht]; decide))
    all_goals exact Or.inl (by decide +kernel)
  obtain ⟨r', hr', hnext, -⟩ := (refused_calls_leave_no_trace r.next).2.1 c hcall
  exact ⟨r', hr', hnext⟩

end Session

end Downhill

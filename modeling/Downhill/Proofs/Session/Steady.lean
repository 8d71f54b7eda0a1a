import Mathlib.Order.Bounds.Basic
import Downhill.Proofs.Session.Finality

/-! # Descents in one and the same settings

As long as every step is taken in the same settings, a descent is the repetition of one function of
the plane, and when it ends is a matter of that function alone.  The settings need not be left
alone for that: what counts are those in force at the steps.

* `Objective.after`: the point after a number of steps, and `Objective.Meets`: the numbers of steps
  after which the threshold is met.
* `Segment.Steady`: a segment in which this is so.  It takes the steps of that repetition
  (`events_eq`), it has converged exactly if the number of its steps is the least one that meets
  the threshold (`converged_iff`), and it never goes beyond that number (`iterationCount_le`).
* `Segment.Steady.descend_eq`: given enough steps, a descent gets there.
-/

namespace Downhill

variable {α σ γ : Type} [Scalar α]

/-! ## 1. One function, repeated -/

namespace Objective

variable (f : Objective α) (config : Config α) (p : Point α)

/-- The point accepted after `p`. -/
def next : Point α := config.constraint.project (config.rule.propose f p)

/-- The point reached from `p` in `n` steps. -/
def after (n : Nat) : Point α := (f.next config)^[n] p

/-- The threshold is met by the `n`-th step from `p`. -/
def Meets (n : Nat) : Prop := 1 ≤ n ∧ f.slope (f.after config p n) ≤ config.threshold

@[simp] theorem after_zero : f.after config p 0 = p := rfl

theorem after_succ (n : Nat) : f.after config p (n + 1) = f.next config (f.after config p n) :=
  Function.iterate_succ_apply' _ n p

theorem stepAfter_eq : ∀ (j k : Nat) (p : Point α),
    f.stepAfter config j k p = f.stepFrom config (k + j) (f.after config p j)
  | 0, _, _ => rfl
  | j + 1, k, p => by
    rw [stepAfter, stepAfter_eq j, Nat.add_right_comm, Nat.add_assoc]
    rfl

theorem iteration_stepAfter (j k : Nat) : (f.stepAfter config j k p).iteration = k + j := by
  rw [stepAfter_eq]
  rfl

theorem point_stepAfter (j k : Nat) :
    (f.stepAfter config j k p).point = f.after config p (j + 1) := by
  rw [stepAfter_eq, after_succ]
  rfl

theorem gradientNorm_stepAfter (j k : Nat) :
    (f.stepAfter config j k p).gradientNorm = f.slope (f.after config p (j + 1)) := by
  rw [← point_stepAfter f config p j k, stepAfter_eq]
  rfl

theorem converged_stepAfter (j k : Nat) :
    (f.stepAfter config j k p).converged = true ↔ f.Meets config p (j + 1) := by
  have h : (f.stepAfter config j k p).converged =
      decide ((f.stepAfter config j k p).gradientNorm ≤ config.threshold) := by
    rw [stepAfter_eq]
    rfl
  rw [h, decide_eq_true_iff, gradientNorm_stepAfter]
  simp [Meets]

/-- The plain descent in the same settings all along. -/
theorem course_replicate : ∀ (n k : Nat) (p : Point α),
    f.course k p (List.replicate n config) =
      (List.range n).map fun j => f.stepAfter config j k p
  | 0, _, _ => rfl
  | n + 1, k, p => by
    rw [List.replicate_succ, course, course_replicate n, List.range_succ_eq_map, List.map_cons,
      List.map_map]
    rfl

end Objective

/-! ## 2. Segments -/

section Segment

variable [Scheduler σ] [WordSource γ]

/-- The same settings were in force at every step. -/
def Segment.Steady (S : Segment α σ γ) (config : Config α) : Prop :=
  ∀ c ∈ S.settings, c = config

namespace Segment.Steady

variable {S : Segment α σ γ} {config : Config α} (h : S.Steady config)

include h

theorem events_eq_map : S.events = (List.range S.events.length).map fun j =>
    S.first.objective.stepAfter config j 1 S.first.start := by
  have hlength : S.settings.length = S.events.length := by
    simp [Segment.settings, S.events_eq]
  have hsettings : S.settings = List.replicate S.events.length config :=
    List.eq_replicate_iff.mpr ⟨hlength, h⟩
  have hcourse := S.course_eq.1
  rw [hsettings] at hcourse
  exact hcourse.trans (S.first.objective.course_replicate config _ 1 S.first.start)

/-- The readings are those of the last step, told from their number. -/
theorem readings_eq : S.last.readings = match S.events.length with
    | 0 => .atStart S.first.start
    | j + 1 => .ofEvent (S.first.objective.stepAfter config j 1 S.first.start) := by
  rw [S.readings_eq, h.events_eq_map, List.length_map, List.length_range]
  cases S.events.length with
  | zero => rfl
  | succ j => simp [List.range_succ]

/-- The number of steps is the one that the session reads, -/
theorem length_events : S.events.length = S.last.iterationCount := by
  rw [Session.iterationCount, h.readings_eq]
  cases S.events.length with
  | zero => rfl
  | succ j =>
    simp only [Readings.ofEvent, Objective.iteration_stepAfter]
    exact Nat.add_comm j 1

theorem events_eq : S.events = (List.range S.last.iterationCount).map fun j =>
    S.first.objective.stepAfter config j 1 S.first.start := by
  rw [← h.length_events]
  exact h.events_eq_map

/-- the current point is the one after that many steps, -/
theorem iterate_eq : S.last.iterate =
    S.first.objective.after config S.first.start S.last.iterationCount := by
  rw [← h.length_events, Session.iterate, h.readings_eq]
  cases S.events.length with
  | zero => rfl
  | succ j => exact Objective.point_stepAfter _ _ _ j 1

theorem gradientNorm_eq (hn : S.last.iterationCount ≠ 0) : S.last.gradientNorm =
    S.first.objective.slope S.last.iterate := by
  rw [h.iterate_eq, Session.gradientNorm, h.readings_eq]
  rw [← h.length_events] at hn ⊢
  cases hcount : S.events.length with
  | zero => exact absurd hcount hn
  | succ j => exact Objective.gradientNorm_stepAfter _ _ _ j 1

/-- and the path leads through the points after fewer. -/
theorem trajectory_eq : S.last.trajectory = (List.range (S.last.iterationCount + 1)).map
    (S.first.objective.after config S.first.start) := by
  rw [S.course_eq.2.2, h.events_eq, List.range_succ_eq_map, List.map_cons, List.map_map,
    List.map_map]
  refine congrArg _ (List.map_congr_left fun j _ => ?_)
  exact Objective.point_stepAfter _ _ _ j 1

/-- No step is taken after the threshold has been met, -/
theorem iterationCount_le {k : Nat} (hk : S.first.objective.Meets config S.first.start k) :
    S.last.iterationCount ≤ k := by
  by_contra hlt
  obtain ⟨i, rfl⟩ := Nat.exists_eq_add_of_le' hk.1
  obtain ⟨m, hm⟩ : ∃ m, S.last.iterationCount = m + 1 := Nat.exists_eq_succ_of_ne_zero (by omega)
  have hmem : S.first.objective.stepAfter config i 1 S.first.start ∈ S.events.dropLast := by
    rw [h.events_eq, hm, List.range_succ, List.map_append]
    simp only [List.map_cons, List.map_nil, List.dropLast_concat]
    exact List.mem_map_of_mem (List.mem_range.mpr (by omega))
  have hconverged := (Objective.converged_stepAfter _ _ _ i 1).mpr hk
  rw [S.not_converged _ hmem] at hconverged
  cases hconverged

/-- **The first step that meets the threshold is the last one.** -/
theorem converged_iff : S.last.mode = .converged ↔
    IsLeast { k | S.first.objective.Meets config S.first.start k } S.last.iterationCount := by
  rw [S.converged_iff]
  constructor
  · rintro ⟨e, he, hconverged⟩
    rw [h.events_eq] at he
    obtain ⟨i, hi, rfl⟩ := List.mem_map.mp he
    have hmeets := (Objective.converged_stepAfter _ _ _ i 1).mp hconverged
    have hcount : S.last.iterationCount = i + 1 :=
      Nat.le_antisymm (h.iterationCount_le hmeets) (List.mem_range.mp hi)
    refine ⟨?_, fun k hk => h.iterationCount_le hk⟩
    rw [hcount]
    exact hmeets
  · rintro ⟨hmeets, -⟩
    obtain ⟨i, hi⟩ := Nat.exists_eq_add_of_le' hmeets.1
    refine ⟨S.first.objective.stepAfter config i 1 S.first.start, ?_, ?_⟩
    · rw [h.events_eq]
      exact List.mem_map_of_mem (List.mem_range.mpr (by omega))
    · rw [Objective.converged_stepAfter, ← hi]
      exact hmeets

theorem converged_iff_eq {N : Nat}
    (hN : IsLeast { k | S.first.objective.Meets config S.first.start k } N) :
    S.last.mode = .converged ↔ S.last.iterationCount = N := by
  rw [h.converged_iff]
  exact ⟨fun hleast => hleast.unique hN, fun heq => heq ▸ hN⟩

end Segment.Steady

end Segment

/-! ## 3. Descending to the end -/

section Descent

variable [Scheduler σ]

namespace Session

/-- The session stands on the descent from `p` in the given settings. -/
structure StandsOn (s : Session α σ γ) (f : Objective α) (config : Config α) (p : Point α) :
    Prop where
  objective_eq : s.objective = f
  config_eq : s.config = config
  iterate_eq : s.iterate = f.after config p s.iterationCount

namespace StandsOn

variable {s : Session α σ γ} {f : Objective α} {config : Config α} {p : Point α}

omit [Scheduler σ] in
theorem nextEvent_eq (h : s.StandsOn f config p) :
    s.nextEvent = f.stepAfter config s.iterationCount 1 p := by
  rw [Session.nextEvent_eq, h.objective_eq, h.config_eq, h.iterate_eq, Objective.stepAfter_eq,
    Nat.add_comm]

theorem advance (h : s.StandsOn f config p) : s.advance.next.StandsOn f config p where
  objective_eq := by rw [objective_advance, h.objective_eq]
  config_eq := by rw [config_advance, h.config_eq]
  iterate_eq := by
    rw [iterate_advance, iterationCount_advance, h.nextEvent_eq, Objective.point_stepAfter]

/-- An interrupted run can be stepped, and so can a session that did not run and is not over. -/
theorem pause (h : s.StandsOn f config p) (hm : s.mode ≠ .converged) :
    s.pause.next.StandsOn f config p ∧ s.pause.next.mode.acceptsManualStep = true ∧
      s.pause.next.iterationCount = s.iterationCount := by
  unfold Session.pause
  split
  · rename_i hrun
    exact ⟨h, Mode.acceptsManualStep_iff.mpr ⟨hrun, hm⟩, rfl⟩
  · exact ⟨⟨h.objective_eq, h.config_eq, h.iterate_eq⟩, rfl, rfl⟩

/-- **Given enough steps, a descent takes the first one that meets the threshold.**  By induction
on the steps it may take: the next step either is that one or leaves the mode as it is. -/
theorem stepUntil_of_isLeast {ω : Type} {observe : Observer ω α}
    (hobserve : ∀ w e, (observe w e).2 = false) {N : Nat}
    (hN : IsLeast { k | f.Meets config p k } N) :
    ∀ (limit : Nat) {s : Session α σ γ} (w : ω), s.StandsOn f config p →
      s.mode.acceptsManualStep = true → s.iterationCount < N → N ≤ s.iterationCount + limit →
      let r := s.stepUntil observe limit w
      r.value.ending = .converged ∧ s.iterationCount + r.value.steps = N ∧
        r.next.objective = f ∧ r.next.iterate = f.after config p N ∧
        r.next.gradientNorm = f.slope (f.after config p N)
  | 0, _, _, _, _, hlt, hle => absurd hlt (by omega)
  | limit + 1, s, w, h, hm, hlt, hle => by
    rw [stepUntil_succ hm (hobserve w _)]
    have hconverged : s.nextEvent.converged = true ↔ f.Meets config p (s.iterationCount + 1) := by
      rw [h.nextEvent_eq]
      exact f.converged_stepAfter config p _ 1
    by_cases hlast : s.iterationCount + 1 = N
    · rw [hlast] at hconverged
      have hmode : s.advance.next.mode = .converged := by
        rw [mode_advance, if_pos (hconverged.mpr hN.1)]
      rw [stepUntil_of_converged hmode]
      refine ⟨rfl, by omega, h.advance.objective_eq, ?_, ?_⟩
      · rw [iterate_advance, h.nextEvent_eq, Objective.point_stepAfter, hlast]
      · rw [gradientNorm_advance, h.nextEvent_eq, Objective.gradientNorm_stepAfter, hlast]
    · have hmeets : ¬f.Meets config p (s.iterationCount + 1) := fun hk => by
        have := hN.2 hk
        omega
      have hmode : s.advance.next.mode = s.mode := by
        rw [mode_advance, if_neg (mt hconverged.mp hmeets)]
      have hcount := s.iterationCount_advance
      obtain ⟨hending, hsteps, hrest⟩ :=
        stepUntil_of_isLeast hobserve hN limit (observe w s.nextEvent).1 h.advance
          (by rw [hmode]; exact hm) (by omega) (by omega)
      exact ⟨hending, by simp only; omega, hrest⟩

end StandsOn

end Session

/-- **A descent that may take enough steps ends where the threshold is first met.** -/
theorem Segment.Steady.descend_eq [WordSource γ] {S : Segment α σ γ} {config : Config α}
    (h : S.Steady config) (hconfig : S.last.config = config) {N : Nat}
    (hN : IsLeast { k | S.first.objective.Meets config S.first.start k } N) {ω : Type}
    {observe : Observer ω α} (hobserve : ∀ w e, (observe w e).2 = false) {limit : Nat}
    (hlimit : N ≤ S.last.iterationCount + limit) (w : ω) :
    let point := S.first.objective.after config S.first.start N
    (S.last.descend observe limit w).value.1 =
      ⟨.converged, point, S.first.objective.evaluate point, S.first.objective.slope point,
        N - S.last.iterationCount⟩ := by
  have hstands : S.last.StandsOn S.first.objective config S.first.start :=
    ⟨Session.objective_linked (Session.linked_turns S.played), hconfig, h.iterate_eq⟩
  by_cases hm : S.last.mode = .converged
  · obtain rfl := (h.converged_iff.mp hm).unique hN
    have hcount : S.last.iterationCount ≠ 0 := Nat.one_le_iff_ne_zero.mp hN.1.1
    rw [Session.descend_of_converged hm, Session.restingSolution, h.gradientNorm_eq hcount,
      Session.functionValue, hstands.objective_eq, h.iterate_eq, Nat.sub_self]
  · have hlt : S.last.iterationCount < N := by
      refine Nat.lt_of_le_of_ne (h.iterationCount_le hN.1) ?_
      rintro rfl
      exact hm (h.converged_iff.mpr hN)
    obtain ⟨hpaused, hmode, hcount⟩ := hstands.pause hm
    obtain ⟨hending, hsteps, hobjective, hpoint, hnorm⟩ :=
      Session.StandsOn.stepUntil_of_isLeast hobserve hN limit w hpaused hmode (by omega)
        (by omega)
    simp only [Session.descend, Session.functionValue, hending, hobjective, hpoint, hnorm]
    congr 1
    omega

end Descent

end Downhill

import Downhill.Proofs.Session.AtMinimum
import Downhill.Proofs.Session.Course

/-! # Which steps are flagged as projected

An event is flagged if its accepted point differs from the proposed one.  The two are compared
afterwards, and an undefined coordinate differs from itself; so a step is flagged also where nothing
has been projected, if its proposal is undefined.

Without a constraint that is the only way.  A descent that diverges first reaches infinite
coordinates, which are not flagged, then undefined ones, which are; and from there no step rule
leads back.  `Segment.flagged_iff_undefined` says so of all steps between two restarts: the
flags are false up to some step and true from there on, and no flagged step converges.
-/

namespace Downhill

open Binary64

/-! ## 1. Undefined points -/

namespace Binary64

/-- Only an undefined number differs from itself. -/
theorem bne_self_iff {x : Float} : (x != x) = true ↔ x.isNaN = true := by
  cases hx : x.isNaN with
  | false => simp [bne, beq_self_of_defined hx]
  | true =>
    have hbeq : (x == x) = (unpacked x).beq (unpacked x) := rfl
    rw [bne, hbeq, isNaN_iff_unpacked.mp hx]
    decide

end Binary64

namespace Point

/-- A coordinate of the point is undefined. -/
def Undefined (p : Point Float) : Prop := p.x.isNaN = true ∨ p.y.isNaN = true

theorem undefined_iff_unpacked {p : Point Float} :
    p.Undefined ↔ unpacked p.x = .notANumber ∨ unpacked p.y = .notANumber :=
  or_congr isNaN_iff_unpacked isNaN_iff_unpacked

/-- A point differs from itself exactly if a coordinate is undefined. -/
theorem bne_self_iff {p : Point Float} : (p != p) = true ↔ p.Undefined := by
  have hparts : (p != p) = (p.x != p.x || p.y != p.y) := Bool.not_and _ _
  rw [hparts, Bool.or_eq_true, Binary64.bne_self_iff, Binary64.bne_self_iff, Undefined]

end Point

/-! ## 2. One step without a constraint -/

namespace QuadraticForm

variable {q : QuadraticForm Float} {p : Point Float}

/-- Every coefficient times an undefined number is undefined, so the gradient is. -/
theorem gradient_undefined (hp : p.Undefined) :
    unpacked (q.objective.gradient p).x = .notANumber := by
  have hp := Point.undefined_iff_unpacked.mp hp
  exact add_undefined (hp.imp (fun hx => mul_undefined (Or.inr hx))
    fun hy => mul_undefined (Or.inr hy))

/-- No step rule leads back from an undefined point. -/
theorem propose_undefined (rule : StepRule Float) (hp : p.Undefined) :
    (rule.propose q.objective p).Undefined :=
  Point.undefined_iff_unpacked.mpr
    (StepRule.propose_undefined_of_gradient (Or.inl (gradient_undefined hp)))

end QuadraticForm

section OneStep

variable {q : QuadraticForm Float} {config : Config Float} {k : Nat} {p : Point Float}

/-- Without a constraint the proposal is accepted. -/
theorem point_stepFrom_of_free {f : Objective Float} (hfree : config.constraint = .unconstrained) :
    (f.stepFrom config k p).point = (f.stepFrom config k p).trial := by
  simp only [Objective.stepFrom, hfree]
  rfl

/-- **Without a constraint a step is flagged exactly if its proposal is undefined.** -/
theorem wasProjected_stepFrom_iff {f : Objective Float}
    (hfree : config.constraint = .unconstrained) :
    (f.stepFrom config k p).wasProjected = true ↔ (f.stepFrom config k p).trial.Undefined := by
  rw [Event.wasProjected, point_stepFrom_of_free hfree]
  exact Point.bne_self_iff

/-- A step from an undefined point is flagged, whatever the settings. -/
theorem undefined_stepFrom (hp : p.Undefined) :
    (q.objective.stepFrom config k p).trial.Undefined :=
  QuadraticForm.propose_undefined config.rule hp

/-- A flagged step does not converge: the slope at its point is undefined as well. -/
theorem not_converged_stepFrom (hfree : config.constraint = .unconstrained)
    (hflag : (q.objective.stepFrom config k p).wasProjected = true) :
    (q.objective.stepFrom config k p).converged = false := by
  have htrial := (wasProjected_stepFrom_iff hfree).mp hflag
  rw [← point_stepFrom_of_free hfree] at htrial
  have hslope := q.slope_undefined (Point.undefined_iff_unpacked.mp htrial)
  refine decide_eq_false fun hle => ?_
  rw [le_iff_unpacked] at hle
  change (unpacked (q.objective.slope (q.objective.stepFrom config k p).point)).le _ = true at hle
  rw [hslope] at hle
  cases hle

end OneStep

/-! ## 3. All steps between two restarts -/

namespace QuadraticForm

variable (q : QuadraticForm Float)

/-- From an undefined point every step is flagged. -/
theorem course_all_flagged : ∀ (cs : List (Config Float)) (k : Nat) (p : Point Float),
    (∀ c ∈ cs, c.constraint = .unconstrained) → p.Undefined →
      (q.objective.course k p cs).map Event.wasProjected = List.replicate cs.length true
  | [], _, _, _, _ => rfl
  | c :: cs, k, p, hfree, hp => by
    have hc := hfree c List.mem_cons_self
    have htrial : (q.objective.stepFrom c k p).trial.Undefined := undefined_stepFrom hp
    have hpoint : (q.objective.stepFrom c k p).point.Undefined := by
      rw [point_stepFrom_of_free hc]
      exact htrial
    have ih := course_all_flagged cs (k + 1) _ (fun d hd => hfree d (List.mem_cons_of_mem _ hd))
      hpoint
    rw [Objective.course, List.map_cons, ih, (wasProjected_stepFrom_iff hc).mpr htrial]
    rfl

/-- **The flags of a course are false up to some step and true from there on.** -/
theorem course_flags : ∀ (cs : List (Config Float)) (k : Nat) (p : Point Float),
    (∀ c ∈ cs, c.constraint = .unconstrained) →
      ∃ m n, (q.objective.course k p cs).map Event.wasProjected =
        List.replicate m false ++ List.replicate n true
  | [], _, _, _ => ⟨0, 0, rfl⟩
  | c :: cs, k, p, hfree => by
    have hc := hfree c List.mem_cons_self
    have hcs := fun d hd => hfree d (List.mem_cons_of_mem _ hd)
    rw [Objective.course, List.map_cons]
    cases hflag : (q.objective.stepFrom c k p).wasProjected with
    | false =>
      obtain ⟨m, n, hrest⟩ := course_flags cs (k + 1) (q.objective.stepFrom c k p).point hcs
      exact ⟨m + 1, n, by rw [hrest]; rfl⟩
    | true =>
      have hpoint := (wasProjected_stepFrom_iff hc).mp hflag
      rw [← point_stepFrom_of_free hc] at hpoint
      exact ⟨0, cs.length + 1, by rw [q.course_all_flagged cs (k + 1) _ hcs hpoint]; rfl⟩

end QuadraticForm

/-- Every event of a course is one plain step in one of its settings. -/
theorem Objective.exists_stepFrom_of_mem_course (f : Objective Float) :
    ∀ {cs : List (Config Float)} {k : Nat} {p : Point Float} {e : Event Float},
      e ∈ f.course k p cs → ∃ c ∈ cs, ∃ j p', e = f.stepFrom c j p'
  | [], _, _, _, he => absurd he (by simp [Objective.course])
  | c :: cs, k, p, e, he => by
    rcases List.mem_cons.mp he with rfl | he
    · exact ⟨c, List.mem_cons_self, k, p, rfl⟩
    · obtain ⟨d, hd, hstep⟩ := f.exists_stepFrom_of_mem_course he
      exact ⟨d, List.mem_cons_of_mem _ hd, hstep⟩

namespace Segment

variable {σ γ : Type} [Scheduler σ] [WordSource γ]

/-- **Without a constraint exactly the undefined proposals are flagged.**

Let a session on a quadratic form be driven in any way from one restart up to the next, so that
every step is taken without a constraint.  Each step accepts its proposal; it is flagged as
projected exactly if a coordinate of the proposal is undefined, and then it has not converged.
So a finite or infinite proposal is not flagged.  The flags of the steps, in order, are false up to
some step and true from there on. -/
theorem flagged_iff_undefined (S : Segment Float σ γ) (q : QuadraticForm Float)
    (hobjective : S.first.objective = q.objective)
    (hfree : ∀ c ∈ S.settings, c.constraint = .unconstrained) :
    (∀ e ∈ S.events, e.point = e.trial ∧
      (e.wasProjected = true ↔ e.trial.x.isNaN = true ∨ e.trial.y.isNaN = true) ∧
      (e.wasProjected = true → e.converged = false)) ∧
    ∃ m n, S.events.map Event.wasProjected = List.replicate m false ++ List.replicate n true := by
  have hcourse := S.course_eq.1
  rw [hobjective] at hcourse
  rw [hcourse]
  refine ⟨fun e he => ?_, q.course_flags S.settings 1 S.first.start hfree⟩
  obtain ⟨c, hc, k, p, rfl⟩ := q.objective.exists_stepFrom_of_mem_course he
  exact ⟨point_stepFrom_of_free (hfree c hc), wasProjected_stepFrom_iff (hfree c hc),
    not_converged_stepFrom (hfree c hc)⟩

end Segment

/-- Three of the longest steps. -/
def threeLongest : List (Command Float) := [.setRule Session.longestStep, .step, .step, .step]

/-- Three of the longest steps on the built-in form: the first proposal has an infinite coordinate
and is not flagged, the other two have undefined ones. -/
theorem longest_steps_flagged_from_second :
    ∃ S : Segment Float VirtualClock Xoshiro,
      S.first.objective = QuadraticForm.bundled.objective ∧ S.commands = threeLongest ∧
      S.events.map (fun e => e.trial.isFinite) = [false, false, false] ∧
      S.events.map Event.wasProjected = [false, true, true] ∧
      ∀ e ∈ S.events, e.point = e.trial ∧ (e.wasProjected = true → e.converged = false) := by
  refine ⟨.ofOpened (Session.opened_bundled Config.made_default
        (rfl : Session.bundled .default ⟨25.0, 15.0⟩ (Xoshiro.ofSeed 7) = .ok _))
      threeLongest (by simp [threeLongest, Command.restarts]) rfl,
    rfl, rfl, ?_, ?_, fun e he => ?_⟩
  · decide +kernel
  · decide +kernel
  · obtain ⟨hpoint, -, hconverged⟩ :=
      (Segment.flagged_iff_undefined _ QuadraticForm.bundled rfl (by decide +kernel)).1 e he
    exact ⟨hpoint, hconverged⟩

/-- **A step without a constraint that is flagged as projected.**  Nothing moves the second of the
longest steps from a point of the built-in form, and it is flagged all the same: its proposal is
undefined and differs from itself. -/
theorem unconstrained_step_flagged :
    ∃ (s₀ : Session Float VirtualClock Xoshiro)
      (r : Reply (List (Answer Float)) Float VirtualClock Xoshiro),
      Session.ofSettings QuadraticForm.bundled.objective .unconstrained Session.longestStep 1e-6
        ⟨25.0, 15.0⟩ .new (Xoshiro.ofSeed 7) = .ok s₀ ∧
      s₀.play [.step, .step] = .ok r ∧
      let events := r.value.flatMap Answer.events
      (∀ e ∈ events, e.point = e.trial) ∧
      events.map (fun e => e.trial.y.isNaN) = [false, true] ∧
      events.map Event.wasProjected = [false, true] :=
  ⟨_, _, rfl, rfl, by decide +kernel, by decide +kernel, by decide +kernel⟩

end Downhill

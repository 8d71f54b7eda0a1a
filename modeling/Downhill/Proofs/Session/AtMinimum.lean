import Downhill.Proofs.Constraint.CurvePoints
import Downhill.Proofs.Session.Range
import Downhill.Proofs.Session.Refusals

/-! # The first step from the minimum

The minimum of a quadratic form is at the origin, and a descent that starts there should stay and
report that it has converged.  Nothing has to be approximated for that: the gradient is made of
products with zeros, and zeros stay zeros under every step rule and every projection.

What can go wrong is a product of a zero with a number that is out of range, which is undefined.
There are two places for such a number.

* A doubled coefficient, `2 a` or `2 c`, may be infinite for coefficients that are accepted.  The
  gradient at the origin is undefined then, and so is its length, wherever the step leads.
* The inverse Hessian of a Newton step may have an infinite entry, although the determinant is
  finite and no smaller than the tolerance.  The proposal is undefined then.  A disk or a parabola
  replaces it by the origin, so only without a constraint the descent leaves the origin.

`Session.first_step_from_minimum` says that these are the only two obstacles, and
`Session.minimum_left` has a form for each.
-/

namespace Downhill

open Binary64

/-! ## 1. What a rule proposes at the minimum -/

namespace StepRule

/-- The matrix that a Newton rule applies to the gradient, if it applies one, has finite entries. -/
def Resolves (rule : StepRule Float) (f : Objective Float) : Prop :=
  match rule with
  | .gradientDescent _ => True
  | .dampedNewton _ => ∀ inverse ∈ newtonInverse? f, inverse.IsFinite

variable {rule : StepRule Float} {f : Objective Float} {p : Point Float}

/-- **A proper rule stays at the origin if the gradient there is zero**, and a Newton rule if its
matrix has finite entries. -/
theorem isZero_propose (hrule : rule.Proper) (hresolves : rule.Resolves f)
    (hp : IsZero p.x ∧ IsZero p.y) (hg : IsZero (f.gradient p).x ∧ IsZero (f.gradient p).y) :
    IsZero (rule.propose f p).x ∧ IsZero (rule.propose f p).y := by
  cases rule with
  | gradientDescent stepSize => exact isZero_step hp hg hrule.1
  | dampedNewton damping =>
    cases hinverse : newtonInverse? f with
    | none =>
      simp only [propose, hinverse]
      exact isZero_step hp hg rfl
    | some inverse =>
      simp only [propose, hinverse]
      exact isZero_step hp (Mat.isZero_mulVec (hresolves inverse hinverse) hg) hrule.1.1

/-- An undefined gradient makes every proposal undefined. -/
theorem propose_undefined_of_gradient
    (h : unpacked (f.gradient p).x = .notANumber ∨ unpacked (f.gradient p).y = .notANumber) :
    unpacked (rule.propose f p).x = .notANumber ∨
      unpacked (rule.propose f p).y = .notANumber := by
  cases rule with
  | gradientDescent stepSize => exact step_undefined h
  | dampedNewton damping =>
    cases hinverse : newtonInverse? f with
    | none =>
      simp only [propose, hinverse]
      exact step_undefined h
    | some inverse =>
      simp only [propose, hinverse]
      have hcomponent {a b : Float} :
          unpacked (a * (f.gradient p).x + b * (f.gradient p).y) = .notANumber :=
        add_undefined (h.imp (fun hx => mul_undefined (Or.inr hx))
          fun hy => mul_undefined (Or.inr hy))
      exact step_undefined (Or.inl hcomponent)

/-- So does a matrix with an entry that is not finite, where the gradient is zero. -/
theorem propose_undefined_of_inverse (hresolves : ¬rule.Resolves f)
    (hg : IsZero (f.gradient p).x ∧ IsZero (f.gradient p).y) :
    unpacked (rule.propose f p).x = .notANumber ∨
      unpacked (rule.propose f p).y = .notANumber := by
  cases rule with
  | gradientDescent stepSize => exact absurd trivial hresolves
  | dampedNewton damping =>
    simp only [Resolves, not_forall] at hresolves
    obtain ⟨inverse, hinverse, hentries⟩ := hresolves
    simp only [propose, Option.mem_def.mp hinverse]
    exact step_undefined (Mat.mulVec_undefined hentries hg)

end StepRule

/-! ## 2. Projections at the origin -/

/-- Proper constraints contain the origin and leave it where it is. -/
theorem Constraint.isZero_project {constraint : Constraint Float} (hc : constraint.check = .ok ())
    {p : Point Float} (hp : IsZero p.x ∧ IsZero p.y) :
    IsZero (constraint.project p).x ∧ IsZero (constraint.project p).y := by
  have hfinite : p.isFinite = true := point_isFinite_iff.mpr ⟨hp.1.isFinite, hp.2.isFinite⟩
  cases constraint with
  | unconstrained => exact hp
  | disk radius =>
    have hnorm : IsZero p.norm := ⟨.positive, hypotenuse_zeros hp.1 hp.2⟩
    have hkeeps : (disk radius).project p = p := by
      rw [project_of_finite hfinite]
      exact if_pos (Bool.or_eq_true_iff.mpr (Or.inr (isZero_iff_beq.mp hnorm)))
    rw [hkeeps]
    exact hp
  | parabola k =>
    have hk : k.isFinite = true := by simpa [check] using hc
    have hcurve : IsZero (k * p.y * p.y) := isZero_mul (isZero_mul hk hp.2).isFinite hp.2
    have hon : OnCurve k p :=
      ⟨hfinite, isZero_sub hp.1.isFinite hcurve.isFinite (hp.1.toRat_eq.trans hcurve.toRat_eq.symm)⟩
    rw [hon.project_eq hk]
    exact ⟨hcurve, hp.2⟩

/-! ## 3. The first step -/

namespace Session

variable {σ γ : Type}

/-- Nothing out of range takes part in a step from the minimum: the doubled coefficients are finite
and so, without a constraint, is the matrix that a Newton rule applies. -/
def HoldsMinimum (q : QuadraticForm Float) (config : Config Float) : Prop :=
  ((2.0 * q.a).isFinite = true ∧ (2.0 * q.c).isFinite = true) ∧
    (config.constraint = .unconstrained → config.rule.Resolves q.objective)

/-- Before the first step a session stands at its start. -/
theorem Recorded.iterate_eq_start {α : Type} [Scalar α] {s : Session α σ γ} (h : s.Recorded)
    (hcount : s.iterationCount = 0) : s.iterate = s.start := by
  have hlength := h.length
  rw [hcount] at hlength
  obtain ⟨p, hp⟩ := List.length_eq_one_iff.mp hlength
  have hfirst := h.first
  have hlast := h.last
  rw [hp] at hfirst hlast
  exact (Option.some.inj hlast).symm.trans (Option.some.inj hfirst)

section NextEvent

variable {α : Type} [Scalar α] (s : Session α σ γ)

/-- The accepted point is the projection of the proposed one, -/
theorem point_nextEvent : s.nextEvent.point =
    s.config.constraint.project (s.config.rule.propose s.objective s.iterate) := rfl

/-- and the slope is taken there. -/
theorem gradientNorm_nextEvent : s.nextEvent.gradientNorm =
    s.objective.slope s.nextEvent.point := rfl

end NextEvent

variable {q : QuadraticForm Float} {s : Session Float σ γ}

/-- Where nothing out of range takes part, the step ends at the origin with slope zero. -/
theorem nextEvent_of_holds (hs : s.config.Valid) (hq : s.objective = q.objective)
    (hat : IsZero s.iterate.x ∧ IsZero s.iterate.y) (h : HoldsMinimum q s.config) :
    (IsZero s.nextEvent.point.x ∧ IsZero s.nextEvent.point.y) ∧ IsZero s.nextEvent.gradientNorm ∧
      s.nextEvent.converged = true := by
  obtain ⟨⟨ha, hc⟩, hresolves⟩ := h
  have hgradient := q.gradient_origin ha hc hat.1 hat.2
  have hpoint : IsZero s.nextEvent.point.x ∧ IsZero s.nextEvent.point.y := by
    have hrule := StepRule.check_eq_ok_iff.mp hs.rule
    rw [point_nextEvent, hq]
    by_cases hr : s.config.rule.Resolves q.objective
    · exact Constraint.isZero_project hs.constraint
        (StepRule.isZero_propose hrule hr hat hgradient)
    · have htrial := StepRule.propose_undefined_of_inverse hr hgradient
      rw [Constraint.project_of_not_finite (fun hfree => hr (hresolves hfree))
        (not_finite_of_undefined htrial)]
      exact isZero_origin
  have hslope := gradientNorm_nextEvent s
  rw [hq] at hslope
  have hthreshold := (Config.checkThreshold_eq_ok_iff.mp hs.threshold).2
  refine ⟨hpoint, ?_, ?_⟩
  · rw [hslope]
    exact ⟨.positive, q.slope_origin ha hc hpoint.1 hpoint.2⟩
  · have hmeets := (q.slope_origin_le_iff hthreshold hpoint.1 hpoint.2).mpr ⟨ha, hc⟩
    rw [← hslope] at hmeets
    exact decide_eq_true hmeets

/-- Where something does, the proposal is undefined.  Without a constraint it is accepted, else the
origin is, and in both cases the slope there is undefined. -/
theorem nextEvent_of_not_holds (hq : s.objective = q.objective)
    (hat : IsZero s.iterate.x ∧ IsZero s.iterate.y) (h : ¬HoldsMinimum q s.config) :
    (s.config.constraint = .unconstrained → s.nextEvent.point.isFinite = false) ∧
      (s.config.constraint ≠ .unconstrained → s.nextEvent.point = .origin) ∧
      s.nextEvent.gradientNorm.isNaN = true ∧ s.nextEvent.converged = false := by
  have htrial : unpacked (s.config.rule.propose q.objective s.iterate).x = .notANumber ∨
      unpacked (s.config.rule.propose q.objective s.iterate).y = .notANumber := by
    by_cases hdoubled : (2.0 * q.a).isFinite = true ∧ (2.0 * q.c).isFinite = true
    · have hr : ¬s.config.rule.Resolves q.objective := fun hr => h ⟨hdoubled, fun _ => hr⟩
      exact StepRule.propose_undefined_of_inverse hr
        (q.gradient_origin hdoubled.1 hdoubled.2 hat.1 hat.2)
    · exact StepRule.propose_undefined_of_gradient
        (q.gradient_origin_undefined hdoubled hat.1 hat.2)
  have hpoint := point_nextEvent s
  have hslope := gradientNorm_nextEvent s
  rw [hq] at hpoint hslope
  have hplace : (s.config.constraint = .unconstrained → s.nextEvent.point.isFinite = false) ∧
      (s.config.constraint ≠ .unconstrained → s.nextEvent.point = .origin) := by
    refine ⟨fun hfree => ?_, fun hc => ?_⟩
    · rw [hpoint, hfree]
      exact not_finite_of_undefined htrial
    · rw [hpoint]
      exact Constraint.project_of_not_finite hc (not_finite_of_undefined htrial)
  have hundefined : unpacked s.nextEvent.gradientNorm = .notANumber := by
    rw [hslope]
    by_cases hfree : s.config.constraint = .unconstrained
    · rw [hpoint, hfree]
      exact q.slope_undefined htrial
    · rw [hplace.2 hfree]
      exact q.slope_origin_undefined (fun hd => h ⟨hd, fun hc => absurd hc hfree⟩)
        isZero_origin.1 isZero_origin.2
  refine ⟨hplace.1, hplace.2, ?_, ?_⟩
  · change (unpacked s.nextEvent.gradientNorm).isNaN = true
    rw [hundefined]
    rfl
  · refine decide_eq_false fun hle => ?_
    rw [le_iff_unpacked] at hle
    change (unpacked s.nextEvent.gradientNorm).le _ = true at hle
    rw [hundefined] at hle
    cases hle

variable [Scheduler σ] [WordSource γ]

/-- **What the first step from the minimum does.**

Whatever has been done to a session of a quadratic form, if it stands idle at its start and the
start is the minimum, its first step is taken.  If nothing out of range takes part in it, the step
stays at the origin, reports the gradient norm zero and converges.  Otherwise the gradient norm it
reports is undefined and it does not converge; without a constraint it has left the origin for a
point that is not finite, and with one it stays there. -/
theorem first_step_from_minimum {scheduler : σ} (hs : Reachable scheduler s)
    (hq : s.objective = q.objective) (hmode : s.mode = .idle) (hcount : s.iterationCount = 0)
    (hstart : (s.start == q.minimizer) = true) :
    ∃ e, s.step.value = some e ∧ e.iteration = 1 ∧
      (HoldsMinimum q s.config →
        (e.point == q.minimizer) = true ∧ (e.gradientNorm == 0.0) = true ∧
          e.converged = true ∧ s.step.next.mode = .converged) ∧
      (¬HoldsMinimum q s.config →
        (s.config.constraint = .unconstrained → e.point.isFinite = false) ∧
          (s.config.constraint ≠ .unconstrained → e.point = q.minimizer) ∧
          e.gradientNorm.isNaN = true ∧ e.converged = false ∧ s.step.next.mode = .idle) := by
  have hcoherent := hs.coherent
  have hat : IsZero s.iterate.x ∧ IsZero s.iterate.y := by
    rw [hcoherent.iterate_eq_start hcount]
    exact point_beq_origin_iff.mp hstart
  have hstep := step_eq (s := s) (by rw [hmode]; rfl)
  rw [hstep]
  refine ⟨s.nextEvent, rfl, congrArg (· + 1) hcount, fun h => ?_, fun h => ?_⟩
  · obtain ⟨hpoint, hslope, hconverged⟩ := nextEvent_of_holds hcoherent.valid hq hat h
    exact ⟨point_beq_origin_iff.mpr hpoint, isZero_iff_beq.mp hslope, hconverged,
      by rw [mode_advance, if_pos hconverged]⟩
  · obtain ⟨hfree, hbound, hslope, hconverged⟩ := nextEvent_of_not_holds hq hat h
    refine ⟨hfree, hbound, hslope, hconverged, ?_⟩
    rw [mode_advance, hconverged, hmode]
    rfl

/-- A Newton step in a disk stays at the minimum of the built-in form. -/
theorem newton_stays_at_minimum :
    ∃ s : Session Float VirtualClock Xoshiro,
      ofSettings QuadraticForm.bundled.objective (.disk 25.0) (.dampedNewton 0.5) 1e-6 .origin
        .new (Xoshiro.ofSeed 7) = .ok s ∧
      ∃ e, s.step.value = some e ∧ (e.point == .origin) = true ∧
        (e.gradientNorm == 0.0) = true ∧ e.converged = true ∧ s.step.next.mode = .converged := by
  have hholds : HoldsMinimum QuadraticForm.bundled
      ⟨.dampedNewton 0.5, .disk 25.0, 1e-6⟩ := ⟨by decide +kernel, by rintro ⟨⟩⟩
  refine exists_made .ofSettings (fun s => s.objective = QuadraticForm.bundled.objective ∧
    s.mode = .idle ∧ s.iterationCount = 0 ∧ (s.start == QuadraticForm.bundled.minimizer) = true ∧
    s.config = ⟨.dampedNewton 0.5, .disk 25.0, 1e-6⟩) rfl
    ⟨rfl, rfl, rfl, by decide +kernel, rfl⟩ ?_
  rintro s hs ⟨hq, hmode, hcount, hstart, hconfig⟩
  obtain ⟨e, he, -, hstays, -⟩ :=
    first_step_from_minimum ⟨s, [], _, hs, rfl, rfl⟩ hq hmode hcount hstart
  exact ⟨e, he, hstays (hconfig ▸ hholds)⟩

/-- **Two accepted forms whose minimum the first step leaves.**  Twice the first coefficient of
`2¹⁰²³ x² + y²` is infinite, and so is an entry of the inverse Hessian of
`2⁻¹⁰³⁰ x² + 2¹⁰⁰⁰ y²`. -/
theorem minimum_left :
    (∃ (q : QuadraticForm Float) (s : Session Float VirtualClock Xoshiro) (e : Event Float),
      QuadraticForm.ofCoefficients (.ofBits 0x7fe0000000000000) 0.0 1.0 = .ok q ∧
      ofSettings q.objective .unconstrained (.gradientDescent 1.0) 1e-6 q.minimizer .new
        (Xoshiro.ofSeed 7) = .ok s ∧
      s.step.value = some e ∧ e.point.isFinite = false ∧ e.gradientNorm.isNaN = true ∧
      e.converged = false) ∧
    ∃ (q : QuadraticForm Float) (s : Session Float VirtualClock Xoshiro) (e : Event Float),
      QuadraticForm.ofCoefficients (.ofBits 0x0000100000000000) 0.0
        (.ofBits 0x7e70000000000000) = .ok q ∧
      ofSettings q.objective .unconstrained (.dampedNewton 1.0) 1e-6 q.minimizer .new
        (Xoshiro.ofSeed 7) = .ok s ∧
      s.step.value = some e ∧ e.point.isFinite = false ∧ e.gradientNorm.isNaN = true ∧
      e.converged = false := by
  refine ⟨⟨_, _, _, rfl, rfl, rfl, ?_, ?_, ?_⟩, ⟨_, _, _, rfl, rfl, rfl, ?_, ?_, ?_⟩⟩
  all_goals decide +kernel

end Session

end Downhill

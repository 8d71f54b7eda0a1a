import Downhill.Proofs.Exact.Newton
import Downhill.Proofs.Exact.StabilityLimit
import Downhill.Proofs.Objective.RoundedNewton

/-! # Where damped Newton descends

On a quadratic form, in exact arithmetic, a damped Newton step multiplies the value by `(1 - η)²`,
as long as the Hessian does not read as singular.  Where it does, the rule takes a gradient step of
a fixed size, which knows nothing of the form: such steps never climb exactly if their size is not
beyond the stability limit (`evaluate_next_le_iff`), and beyond it they climb from every point on an
eigenvector of the largest eigenvalue.

That is so for every form that is positive definite in exact arithmetic, and only for those.  In
rounded arithmetic a step does not climb either, unless its descent is lost in the rounding of the
values, and then it climbs by no more than that (`rounded_newton_descends`).  Each condition that
this needs is left by a step that climbs (`damped_newton_climbs`): a fallback beyond the stability
limit, a form with a determinant that has no correct digit, one that is accepted without being
positive definite, and numbers at either end of the range.
-/

namespace Downhill.QuadraticForm

open Binary64

variable {q : QuadraticForm ℝ} {α η ε : ℝ}

/-! ## 1. Gradient steps -/

/-- Up to the stability limit the ratio is at most one. -/
theorem ratio_le_one (hα : 0 ≤ α) (hlimit : α ≤ q.objective.stabilityLimit) : q.ratio α ≤ 1 := by
  obtain ⟨hsmall, hlarge⟩ := q.eigenvalues_pos
  rw [stabilityLimit_eq, le_div_iff₀ hlarge] at hlimit
  have hle : α * q.objective.hessian.eigenvalues.1 ≤ α * q.objective.hessian.eigenvalues.2 :=
    mul_le_mul_of_nonneg_left q.objective.hessian.eigenvalues_le hα
  have hnonneg := mul_nonneg hα hsmall.le
  refine max_le ?_ ?_
  · rw [abs_le]
    constructor <;> linarith
  · rw [abs_le]
    constructor <;> linarith

theorem evaluate_nonneg (q : QuadraticForm ℝ) (p : Point ℝ) : 0 ≤ q.objective.evaluate p := by
  obtain ⟨e, he⟩ := q.exists_principal_hessian
  obtain ⟨hsmall, hlarge⟩ := q.eigenvalues_pos
  rw [evaluate_eq_weigh he]
  exact e.weigh_nonneg (by positivity) (by positivity) p

/-- On an eigenvector a gradient step multiplies the value by the square of one number. -/
theorem evaluate_next_eigenvector {p : Point ℝ} {k : ℝ}
    (hk : q.objective.hessian.mulVec p.toVec = p.toVec * k) :
    q.objective.evaluate (q.objective.next (gradientSettings α ε) p) =
      q.objective.evaluate p * (1 - α * k) ^ 2 := by
  have hnext : q.objective.next (gradientSettings α ε) p = p.scale (1 - α * k) := by
    rw [next_gradientSettings, gradient_eq_mulVec, hk]
    simp only [Vec.mul_eq, Point.toVec, Point.scale, Point.mk.injEq]
    constructor <;> ring
  rw [hnext, evaluate_scale]

/-- **Gradient steps never climb exactly up to the stability limit.** -/
theorem evaluate_next_le_iff (hα : 0 ≤ α) :
    (∀ p, q.objective.evaluate (q.objective.next (gradientSettings α ε) p) ≤
      q.objective.evaluate p) ↔ α ≤ q.objective.stabilityLimit := by
  constructor
  · intro hdescends
    have hlargest := Mat.isGreatest_eigenvalues (2 * q.a) q.b (2 * q.c)
    rw [← hessian_eq] at hlargest
    obtain ⟨v, hv, hk⟩ := hlargest.1
    -- the point at the end of the eigenvector
    let p : Point ℝ := ⟨v.x, v.y⟩
    have hp : p ≠ .origin := by
      rw [Point.origin_eq]
      intro horigin
      obtain ⟨hx, hy⟩ := Point.mk.inj horigin
      exact hv (congrArg₂ Vec.mk hx hy)
    have hle := hdescends p
    rw [evaluate_next_eigenvector hk] at hle
    have hsquare : (1 - α * q.objective.hessian.eigenvalues.2) ^ 2 ≤ 1 := by
      by_contra! hlarge
      exact hle.not_gt (lt_mul_of_one_lt_right (evaluate_pos hp) hlarge)
    rw [stabilityLimit_eq, le_div_iff₀ q.eigenvalues_pos.2]
    linarith [(abs_le.mp ((sq_le_one_iff_abs_le_one _).mp hsquare)).1]
  · intro hlimit p
    have hratio := pow_le_one₀ (q.ratio_nonneg α) (ratio_le_one hα hlimit) (n := 2)
    exact (evaluate_next_le q α ε p).trans (mul_le_of_le_one_left (q.evaluate_nonneg p) hratio)

/-! ## 2. Newton steps -/

/-- The rule falls back exactly for a determinant below the tolerance. -/
theorem fallsBack_iff : (StepRule.dampedNewton η).fallsBack q.objective = true ↔
    q.objective.hessian.det < StepRule.singularTolerance := by
  constructor
  · intro hfalls
    by_contra! hdet
    have hsome := newtonInverse?_eq hdet
    simp only [StepRule.fallsBack, hsome] at hfalls
    cases hfalls
  · intro hdet
    have hsingular : Scalar.abs q.objective.hessian.det < StepRule.singularTolerance := by
      rwa [Exact.abs_eq, abs_of_pos q.det_hessian_pos]
    have hnone : StepRule.newtonInverse? q.objective = none := if_pos (by simp [hsingular])
    simp only [StepRule.fallsBack, hnone]
    rfl

/-- A rule that does not fall back goes a fraction of the way to the minimizer, which takes the
square of what remains from the value. -/
theorem evaluate_propose_regular
    (h : (StepRule.dampedNewton η).fallsBack q.objective = false) (p : Point ℝ) :
    q.objective.evaluate ((StepRule.dampedNewton η).propose q.objective p) =
      q.objective.evaluate p * (1 - η) ^ 2 := by
  rw [← Bool.not_eq_true, fallsBack_iff, not_lt] at h
  rw [propose_dampedNewton h, evaluate_scale]

/-- A rule that falls back takes a gradient step. -/
theorem propose_fallback (h : (StepRule.dampedNewton η).fallsBack q.objective = true)
    (p : Point ℝ) : (StepRule.dampedNewton η).propose q.objective p =
      q.objective.next (gradientSettings StepRule.fallbackStepSize ε) p := by
  have hnone : StepRule.newtonInverse? q.objective = none := Option.isNone_iff_eq_none.mp h
  simp only [StepRule.propose, hnone]
  rfl

/-- In exact arithmetic a step that does not fall back multiplies the value by `(1 - η)²`.  Steps
that fall back never climb exactly if the fixed step size is not beyond the stability limit. -/
theorem exact_newton_descends (q : QuadraticForm ℝ) {η : ℝ} (hη : 0 < η) (hη1 : η ≤ 1) :
    let f := q.objective
    let rule := StepRule.dampedNewton η
    (rule.fallsBack f = false → ∀ p,
      f.evaluate (rule.propose f p) = f.evaluate p * (1 - η) ^ 2 ∧
        f.evaluate (rule.propose f p) ≤ f.evaluate p) ∧
    (rule.fallsBack f = true → ((∀ p, f.evaluate (rule.propose f p) ≤ f.evaluate p) ↔
      StepRule.fallbackStepSize ≤ f.stabilityLimit)) := by
  refine ⟨fun hregular p => ?_, fun hsingular => ?_⟩
  · have hvalue := evaluate_propose_regular hregular p
    have hfactor : (1 - η) ^ 2 ≤ 1 := pow_le_one₀ (by linarith) (by linarith)
    exact ⟨hvalue, hvalue.trans_le (mul_le_of_le_one_right (q.evaluate_nonneg p) hfactor)⟩
  · have hsize : (0 : ℝ) ≤ StepRule.fallbackStepSize := by
      rw [StepRule.fallbackStepSize]
      norm_num
    rw [← evaluate_next_le_iff (ε := 1) hsize]
    refine forall_congr' fun p => ?_
    rw [propose_fallback (ε := 1) hsingular]

/-! ## 3. In both arithmetics -/

/-- **Where damped Newton descends.**

In exact arithmetic, on every positive definite form, a step that does not fall back multiplies the
value by `(1 - η)²`, and steps that fall back never climb exactly if the fixed step size is not
beyond the stability limit.

In rounded arithmetic, from the origin and from all points with a scale `t m²` of the value between
`2 ^ -1018` and `2 ^ 1010`, a step climbs by at most the part `2 ^ -45` of the scale if

* it does not fall back, and `t ≤ 2⁵⁰⁰` and `t² ≤ 2⁴⁴ D`, or
* it falls back, and `t ≤ 1`.

It does not climb at all if moreover `t² ≤ 2⁴⁴ η D`, or `t³ ≤ 2⁴⁴ D²` where it falls back. -/
theorem damped_newton_descends :
    (∀ (q : QuadraticForm ℝ) (η : ℝ), 0 < η → η ≤ 1 →
      let f := q.objective
      let rule := StepRule.dampedNewton η
      (rule.fallsBack f = false → ∀ p,
        f.evaluate (rule.propose f p) = f.evaluate p * (1 - η) ^ 2 ∧
          f.evaluate (rule.propose f p) ≤ f.evaluate p) ∧
      (rule.fallsBack f = true → ((∀ p, f.evaluate (rule.propose f p) ≤ f.evaluate p) ↔
        StepRule.fallbackStepSize ≤ f.stabilityLimit))) ∧
    (∀ (q : QuadraticForm Float) (η : Float) (p : Point Float), 0.0 < η → η ≤ 1.0 → q.InRange p →
      let f := q.objective
      let rule := StepRule.dampedNewton η
      let p' := rule.propose f p
      let rises := q.RisesAtMost (2 ^ (-45 : ℤ) * q.valueScale p) p p'
      let descends := f.evaluate p' ≤ f.evaluate p
      (rule.fallsBack f = false → q.halfTrace ≤ 2 ^ (500 : ℤ) →
        q.halfTrace ^ 2 ≤ 2 ^ 44 * q.exactDet →
          rises ∧ (q.halfTrace ^ 2 ≤ 2 ^ 44 * (toRat η * q.exactDet) → descends)) ∧
      (rule.fallsBack f = true → q.halfTrace ≤ 1 →
        rises ∧ (q.halfTrace ^ 3 ≤ 2 ^ 44 * q.exactDet ^ 2 → descends))) :=
  ⟨fun q _ hη hη1 => exact_newton_descends q hη hη1,
    fun _ _ _ hη hη1 hp => rounded_newton_descends hη hη1 hp⟩

/-- A form on which the rule falls back, below the stability limit. -/
noncomputable def flatForm : QuadraticForm ℝ where
  a := 1 / 1000000
  b := 0
  c := 1 / 1000000
  accepted := accepted_iff.mpr (by norm_num)

theorem eigenvalues_flatForm :
    flatForm.objective.hessian.eigenvalues = (1 / 500000, 1 / 500000) := by
  rw [hessian_eq, Mat.eigenvalues_eq]
  simp only [flatForm, Mat.symmetric]
  norm_num

/-- The same in rounded arithmetic, -/
def smallForm : QuadraticForm Float :=
  ⟨Float.ofBits 0x3ed0000000000000, 0.0, Float.ofBits 0x3ed0000000000000, by decide +kernel⟩

/-- and a form with long and narrow level sets, `x² + 0.0001 y²`. -/
def thinForm : QuadraticForm Float := ⟨1.0, 0.0, 1e-4, by decide +kernel⟩

theorem scales_smallForm :
    smallForm.halfTrace = 1 / 2 ^ 17 ∧ smallForm.exactDet = 1 / 2 ^ 34 := by
  have ha : toRat smallForm.a = (2 ^ 52 : ℕ) * 2 ^ (-70 : ℤ) := rfl
  have hb : toRat smallForm.b = 0 := toRat_zero
  have hc : toRat smallForm.c = (2 ^ 52 : ℕ) * 2 ^ (-70 : ℤ) := rfl
  rw [halfTrace, exactDet, ha, hb, hc]
  norm_num

theorem scales_thinForm : thinForm.halfTrace = 1 + 7378697629483821 / 2 ^ 66 ∧
    thinForm.exactDet = 7378697629483821 / 2 ^ 64 := by
  have ha : toRat thinForm.a = 1 := toRat_one
  have hb : toRat thinForm.b = 0 := toRat_zero
  have hc : toRat thinForm.c = (7378697629483821 : ℕ) * 2 ^ (-66 : ℤ) := rfl
  rw [halfTrace, exactDet, ha, hb, hc]
  norm_num

/-- The point `(25, 15)` is in range of all forms of a moderate trace. -/
theorem inRange_corner {q : QuadraticForm Float} (h : Between (-20) 20 q.halfTrace) :
    q.InRange ⟨25.0, 15.0⟩ := by
  have hx : toRat 25.0 = (7036874417766400 : ℕ) * 2 ^ (-48 : ℤ) := rfl
  have hy : toRat 15.0 = (8444249301319680 : ℕ) * 2 ^ (-49 : ℤ) := rfl
  have hextent : extent ⟨25.0, 15.0⟩ = 25 := by
    rw [extent, hx, hy]
    norm_num
  have hsize : Between 0 10 ((25 : ℚ) ^ 2) := by constructor <;> norm_num
  refine ⟨rfl, Or.inr ?_⟩
  rw [valueScale, hextent]
  exact (h.mul hsize).mono (by norm_num) (by norm_num)

/-- Steps halfway to the minimizer and steps that fall back, in both arithmetics; a step with a
damping of about `2 ^ -54`, and one from the origin. -/
theorem newton_and_fallback_steps_descend :
    roundForm.objective.evaluate ((StepRule.dampedNewton (1 / 2)).propose roundForm.objective
      ⟨3, 4⟩) = 25 / 4 ∧
    ((StepRule.dampedNewton (1 / 2)).fallsBack flatForm.objective = true ∧
      ∀ p, flatForm.objective.evaluate ((StepRule.dampedNewton (1 / 2)).propose
        flatForm.objective p) ≤ flatForm.objective.evaluate p) ∧
    ((StepRule.dampedNewton 0.5).fallsBack thinForm.objective = false ∧
      thinForm.objective.evaluate ((StepRule.dampedNewton 0.5).propose thinForm.objective
        ⟨25.0, 15.0⟩) ≤ thinForm.objective.evaluate ⟨25.0, 15.0⟩ ∧
      thinForm.objective.evaluate ((StepRule.dampedNewton 0.5).propose thinForm.objective
        .origin) ≤ thinForm.objective.evaluate .origin) ∧
    thinForm.RisesAtMost (2 ^ (-45 : ℤ) * thinForm.valueScale ⟨25.0, 15.0⟩) ⟨25.0, 15.0⟩
      ((StepRule.dampedNewton (Float.ofBits 0x3c98becc383c460f)).propose thinForm.objective
        ⟨25.0, 15.0⟩) ∧
    ((StepRule.dampedNewton 0.5).fallsBack smallForm.objective = true ∧
      smallForm.objective.evaluate ((StepRule.dampedNewton 0.5).propose smallForm.objective
        ⟨25.0, 15.0⟩) ≤ smallForm.objective.evaluate ⟨25.0, 15.0⟩) := by
  obtain ⟨hexact, hrounded⟩ := damped_newton_descends
  obtain ⟨htrace, hdet⟩ := scales_thinForm
  obtain ⟨htrace', hdet'⟩ := scales_smallForm
  have hround : (StepRule.dampedNewton (1 / 2)).fallsBack roundForm.objective = false := by
    rw [← Bool.not_eq_true, fallsBack_iff, not_lt, det_hessian]
    simp only [StepRule.singularTolerance, roundForm]
    norm_num
  have hflat : (StepRule.dampedNewton (1 / 2)).fallsBack flatForm.objective = true := by
    rw [fallsBack_iff, det_hessian]
    simp only [StepRule.singularTolerance, flatForm]
    norm_num
  have hlimit : StepRule.fallbackStepSize ≤ flatForm.objective.stabilityLimit := by
    rw [stabilityLimit_eq, eigenvalues_flatForm, StepRule.fallbackStepSize]
    norm_num
  have hthin : thinForm.InRange ⟨25.0, 15.0⟩ :=
    inRange_corner (by rw [htrace]; constructor <;> norm_num)
  have hsmall : smallForm.InRange ⟨25.0, 15.0⟩ :=
    inRange_corner (by rw [htrace']; constructor <;> norm_num)
  have horigin : thinForm.InRange .origin := by
    refine ⟨rfl, Or.inl ?_⟩
    rw [extent, Point.origin, toRat_zero, abs_zero, max_self]
  have hmoderate : thinForm.halfTrace ≤ 2 ^ (500 : ℤ) := by
    rw [htrace]
    exact le_trans (by norm_num) (zpow_le_zpow_right₀ one_le_two (by norm_num : (1 : ℤ) ≤ 500))
  have hdefinite : thinForm.halfTrace ^ 2 ≤ 2 ^ 44 * thinForm.exactDet := by
    rw [htrace, hdet]
    norm_num
  have hhalf : thinForm.halfTrace ^ 2 ≤ 2 ^ 44 * (toRat 0.5 * thinForm.exactDet) := by
    rw [htrace, hdet, toRat_half]
    norm_num
  refine ⟨?_, ⟨hflat, ?_⟩, ⟨by decide +kernel, ?_, ?_⟩, ?_, ⟨by decide +kernel, ?_⟩⟩
  · rw [((hexact roundForm (1 / 2) (by norm_num) (by norm_num)).1 hround ⟨3, 4⟩).1]
    simp only [objective, roundForm]
    norm_num
  · exact ((hexact flatForm (1 / 2) (by norm_num) (by norm_num)).2 hflat).mpr hlimit
  · exact ((hrounded thinForm 0.5 _ (by decide +kernel) (by decide +kernel) hthin).1
      (by decide +kernel) hmoderate hdefinite).2 hhalf
  · exact ((hrounded thinForm 0.5 _ (by decide +kernel) (by decide +kernel) horigin).1
      (by decide +kernel) hmoderate hdefinite).2 hhalf
  · exact ((hrounded thinForm _ _ (by decide +kernel) (by decide +kernel) hthin).1
      (by decide +kernel) hmoderate hdefinite).1
  · refine ((hrounded smallForm 0.5 _ (by decide +kernel) (by decide +kernel) hsmall).2
      (by decide +kernel) ?_).2 ?_
    · rw [htrace']
      norm_num
    · rw [htrace', hdet']
      norm_num

/-- A step on an accepted form, with a valid damping, from a finite point with a finite value to a
point with a larger one. -/
def Climbs (a b c damping : Float) (p : Point Float) (singular : Bool) (before after : Float) :
    Prop :=
  let rule := StepRule.dampedNewton damping
  ∃ q, ofCoefficients a b c = .ok q ∧ rule.check = .ok () ∧ p.isFinite = true ∧
    rule.fallsBack q.objective = singular ∧ q.objective.evaluate p = before ∧
    before.isFinite = true ∧ q.objective.evaluate (rule.propose q.objective p) = after ∧
    before < after

/-- **Steps that climb**, one for each condition.

1. A fallback beyond the stability limit: the eigenvalues are 4 and `2 ^ -39`.
2. A fallback below it, with `t³` about `2⁵¹ D²`.
3. A damping of about `2 ^ -31` on a form with `t²` about `2²⁰ D`.
4. A full step on an almost degenerate form, with `t²` about `2⁵² D`: the determinant has no correct
   digit.
5. A full step on a form that is accepted although it is not positive definite, as `4 a` overflows.
6. A fallback that is taken because the determinant overflows, for `t = 2⁵¹²`.
7. A step halfway from a point with a value of the size of the least positive number.
8. A fallback on a form with trace two, from a point with a value of about `2 ^ 1022`: a term of the
   value at the point reached is infinite. -/
theorem damped_newton_climbs :
    Climbs 2.0 0.0 (Float.ofBits 0x3d70000000000000) 1.0 ⟨1.0, 0.0⟩ true 2.0 18.0 ∧
    Climbs (Float.ofBits 0x3eb03e3e591b1841) (Float.ofBits 0xbebffefdd7c9252f)
      (Float.ofBits 0x3eaf83834dc9cf80) 1.0
      ⟨Float.ofBits 0xbff085f9e53a5e2c, Float.ofBits 0xbff0c6beeaa298d0⟩ true
      (Float.ofBits 0x3db153c099430000) (Float.ofBits 0x3db153c099450000) ∧
    Climbs (Float.ofBits 0x40121646f5b7c086) (Float.ofBits 0xc021f65213654ac1)
      (Float.ofBits 0x4011d696c4ae133c) (Float.ofBits 0x3dfbdc6312d81103)
      ⟨Float.ofBits 0xbfefd386d45dd013, Float.ofBits 0xbff006198df2e040⟩ false
      (Float.ofBits 0x3ed1e49a92b00000) (Float.ofBits 0x3ed1e49a92c00000) ∧
    Climbs (Float.ofBits 0x409002e64b784e3e) (Float.ofBits 0xc0a65cc5883dc9e3)
      (Float.ofBits 0x409f3b902241219c) 1.0
      ⟨Float.ofBits 0xbff5d47922f95f0c, Float.ofBits 0xbfef436bfef158b6⟩ false
      (Float.ofBits 0x3ef40083cc000000) (Float.ofBits 0x3f2195bc6e3a0000) ∧
    Climbs (Float.ofBits 0x7fd0000000000000) 1.0 (Float.ofBits 1) 1.0
      ⟨Float.ofBits 0x8008000000000000, 1.0⟩ false (Float.ofBits 0x8003ffffffffffff) 0.0 ∧
    Climbs (Float.ofBits 0x5fe0000000000000) 0.0 (Float.ofBits 0x5fe0000000000000) 1.0
      ⟨Float.ofBits 0x1a70000000000000, 0.0⟩ true (Float.ofBits 0x14e0000000000000)
      (Float.ofBits 0x54e0000000000000) ∧
    Climbs 1.0 (-1.75) 1.0 0.5
      ⟨Float.ofBits 0x1e67a5c5c62d3d55, Float.ofBits 0x1e68bd399d599d59⟩ false 0.0
      (Float.ofBits 1) ∧
    Climbs 0.875 (Float.ofBits 0x3fe52a7fa9d2209d) 0.125 1.0
      ⟨0.0, Float.ofBits 0x5ffa000000000000⟩ true (Float.ofBits 0x7fd5200000000000)
      (Float.ofBits 0x7ff0000000000000) := by
  refine ⟨⟨⟨_, _, _, by decide +kernel⟩, dif_pos _, ?_⟩,
    ⟨⟨_, _, _, by decide +kernel⟩, dif_pos _, ?_⟩, ⟨⟨_, _, _, by decide +kernel⟩, dif_pos _, ?_⟩,
    ⟨⟨_, _, _, by decide +kernel⟩, dif_pos _, ?_⟩, ⟨⟨_, _, _, by decide +kernel⟩, dif_pos _, ?_⟩,
    ⟨⟨_, _, _, by decide +kernel⟩, dif_pos _, ?_⟩, ⟨⟨_, _, _, by decide +kernel⟩, dif_pos _, ?_⟩,
    ⟨⟨_, _, _, by decide +kernel⟩, dif_pos _, ?_⟩⟩
  all_goals decide +kernel

end Downhill.QuadraticForm

import Downhill.Proofs.Exact.Axes

/-! # What the stability limit divides

Plain gradient descent on a quadratic form multiplies the coordinates of a point on the axes of the
form by `1 - αL` and `1 - αl`, where `α` is the step size and `L ≥ l` are the eigenvalues of the
Hessian.  Value, gradient and distance from the minimizer are weighted sums of the squares of these
coordinates, or their roots.  Below the limit `2 / L` both factors are less than one in magnitude,
and all three shrink with each step; above it the first factor is more than one in magnitude, and
the gradient of a descent that moves along the first axis at all grows without a bound.

* `Axes.weigh`: a weighted sum of the squares of the coordinates.
* `QuadraticForm.weigh_next_le`: a step shrinks every such sum, by the square of `ratio` at least.
  `next_contracts` says what this means for value, gradient and distance.
* `slope_after_le`, `slope_after_ge`: all steps, below the limit by induction on the step lemma, and
  above it by the inner product with one eigenvector.
* `Segment.stability_limit_divides`: both, for whole descents.
-/

namespace Downhill

variable {σ γ : Type}

/-! ## 1. Sums of squares -/

/-- A sum of the squares of the coordinates on some axes, with weights. -/
def Axes.weigh (e : Axes) (k₁ k₂ : ℝ) (p : Point ℝ) : ℝ :=
  k₁ * e.along p.toVec ^ 2 + k₂ * e.across p.toVec ^ 2

theorem Axes.weigh_nonneg (e : Axes) {k₁ k₂ : ℝ} (h₁ : 0 ≤ k₁) (h₂ : 0 ≤ k₂) (p : Point ℝ) :
    0 ≤ e.weigh k₁ k₂ p := by
  unfold weigh
  positivity

theorem Axes.norm_sq_eq_weigh (e : Axes) (p : Point ℝ) : p.norm ^ 2 = e.weigh 1 1 p := by
  have h := e.norm_sq_eq p.toVec
  rw [weigh, one_mul, one_mul, ← h]
  rfl

/-- Only the origin has no weight. -/
theorem Axes.weigh_pos (e : Axes) {k₁ k₂ : ℝ} (h₁ : 0 < k₁) (h₂ : 0 < k₂) {p : Point ℝ}
    (hp : p ≠ .origin) : 0 < e.weigh k₁ k₂ p := by
  refine lt_of_le_of_ne (e.weigh_nonneg h₁.le h₂.le p) fun hzero => hp ?_
  obtain ⟨halong, hacross⟩ :=
    (add_eq_zero_iff_of_nonneg (by positivity) (by positivity)).mp hzero.symm
  have hvec : p.toVec = ⟨0, 0⟩ := by
    refine e.ext_coordinates ?_ ?_
    · simpa [h₁.ne', Axes.along] using halong
    · simpa [h₂.ne', Axes.across] using hacross
  obtain ⟨hx, hy⟩ := Vec.mk.inj hvec
  rw [Point.origin_eq]
  exact congrArg₂ Point.mk hx hy

namespace QuadraticForm

variable {q : QuadraticForm ℝ} {α ε : ℝ} {e : Axes}

section Weights

variable (he : q.objective.hessian.Principal e) (p : Point ℝ)

include he

theorem evaluate_eq_weigh : q.objective.evaluate p =
    e.weigh (q.objective.hessian.eigenvalues.2 / 2) (q.objective.hessian.eigenvalues.1 / 2) p := by
  have h := q.two_mul_evaluate p
  rw [gradient_eq_mulVec, e.dot_eq, he.along, he.across] at h
  rw [Axes.weigh]
  linarith

theorem slope_sq_eq_weigh : q.objective.slope p ^ 2 =
    e.weigh (q.objective.hessian.eigenvalues.2 ^ 2) (q.objective.hessian.eigenvalues.1 ^ 2) p := by
  rw [Objective.slope, gradient_eq_mulVec, e.norm_sq_eq, he.along, he.across, Axes.weigh]
  ring

end Weights

/-! ## 2. One step -/

/-- The settings of a gradient descent without a constraint. -/
def gradientSettings (α ε : ℝ) : Config ℝ := ⟨.gradientDescent α, .unconstrained, ε⟩

/-- They are accepted if both numbers are positive. -/
theorem made_gradientSettings (hα : 0 < α) (hε : 0 < ε) :
    (gradientSettings α ε).Made := by
  refine .ofSettings (Config.ofSettings_eq_ok_iff.mpr ⟨rfl, ?_, rfl, ?_⟩)
  · have hpositive : (0.0 : ℝ) < α := by
      norm_num
      exact hα
    simp [gradientSettings, StepRule.check, hpositive]
  · rw [Config.checkThreshold_eq_ok_iff]
    simp only [gradientSettings, Exact.isFinite_eq, true_and]
    norm_num
    exact hε

theorem next_gradientSettings (p : Point ℝ) :
    q.objective.next (gradientSettings α ε) p =
      ⟨p.x - (q.objective.gradient p).x * α, p.y - (q.objective.gradient p).y * α⟩ :=
  Point.step_neg p _ α

/-- A step multiplies the coordinates by one number each. -/
theorem coordinates_next (he : q.objective.hessian.Principal e) (p : Point ℝ) :
    let p' := q.objective.next (gradientSettings α ε) p
    e.along p'.toVec = (1 - α * q.objective.hessian.eigenvalues.2) * e.along p.toVec ∧
      e.across p'.toVec = (1 - α * q.objective.hessian.eigenvalues.1) * e.across p.toVec := by
  have halong := he.along p.toVec
  have hacross := he.across p.toVec
  rw [← gradient_eq_mulVec] at halong hacross
  rw [next_gradientSettings]
  simp only [Axes.along, Axes.across, Point.toVec] at halong hacross ⊢
  constructor
  · linear_combination -α * halong
  · linear_combination -α * hacross

/-- The larger of the two numbers, in magnitude. -/
noncomputable def ratio (q : QuadraticForm ℝ) (α : ℝ) : ℝ :=
  max |1 - α * q.objective.hessian.eigenvalues.2| |1 - α * q.objective.hessian.eigenvalues.1|

theorem ratio_nonneg (q : QuadraticForm ℝ) (α : ℝ) : 0 ≤ q.ratio α :=
  (abs_nonneg _).trans (le_max_left _ _)

/-- Below the stability limit both numbers are less than one in magnitude. -/
theorem ratio_lt_one (hα : 0 < α) (hlimit : α < q.objective.stabilityLimit) : q.ratio α < 1 := by
  obtain ⟨hsmall, hlarge⟩ := q.eigenvalues_pos
  rw [stabilityLimit_eq, lt_div_iff₀ hlarge] at hlimit
  have hle : α * q.objective.hessian.eigenvalues.1 ≤ α * q.objective.hessian.eigenvalues.2 :=
    mul_le_mul_of_nonneg_left q.objective.hessian.eigenvalues_le hα.le
  have hpos := mul_pos hα hsmall
  refine max_lt ?_ ?_
  · rw [abs_lt]
    constructor <;> linarith
  · rw [abs_lt]
    constructor <;> linarith

/-- **A step shrinks every sum of squares**, by the square of the ratio at least. -/
theorem weigh_next_le (he : q.objective.hessian.Principal e) {k₁ k₂ : ℝ} (h₁ : 0 ≤ k₁)
    (h₂ : 0 ≤ k₂) (p : Point ℝ) :
    e.weigh k₁ k₂ (q.objective.next (gradientSettings α ε) p) ≤
      q.ratio α ^ 2 * e.weigh k₁ k₂ p := by
  obtain ⟨halong, hacross⟩ := coordinates_next (α := α) (ε := ε) he p
  have hfirst : (1 - α * q.objective.hessian.eigenvalues.2) ^ 2 ≤ q.ratio α ^ 2 :=
    sq_le_sq.mpr ((le_max_left _ _).trans (le_abs_self _))
  have hsecond : (1 - α * q.objective.hessian.eigenvalues.1) ^ 2 ≤ q.ratio α ^ 2 :=
    sq_le_sq.mpr ((le_max_right _ _).trans (le_abs_self _))
  rw [Axes.weigh, Axes.weigh, halong, hacross, mul_pow, mul_pow]
  calc _ ≤ k₁ * (q.ratio α ^ 2 * e.along p.toVec ^ 2) +
        k₂ * (q.ratio α ^ 2 * e.across p.toVec ^ 2) := by gcongr
    _ = q.ratio α ^ 2 * (k₁ * e.along p.toVec ^ 2 + k₂ * e.across p.toVec ^ 2) := by ring

/-! The value, the gradient and the distance from the minimizer are such sums, or their roots. -/

section Measures

variable (q α ε)

theorem evaluate_next_le (p : Point ℝ) :
    q.objective.evaluate (q.objective.next (gradientSettings α ε) p) ≤
      q.ratio α ^ 2 * q.objective.evaluate p := by
  obtain ⟨e, he⟩ := q.exists_principal_hessian
  obtain ⟨hsmall, hlarge⟩ := q.eigenvalues_pos
  rw [evaluate_eq_weigh he, evaluate_eq_weigh he]
  exact weigh_next_le he (by positivity) (by positivity) p

theorem slope_next_le (p : Point ℝ) :
    q.objective.slope (q.objective.next (gradientSettings α ε) p) ≤
      q.ratio α * q.objective.slope p := by
  obtain ⟨e, he⟩ := q.exists_principal_hessian
  have hbound := mul_nonneg (q.ratio_nonneg α) (q.objective.slope_nonneg p)
  refine (sq_le_sq₀ (Objective.slope_nonneg _ _) hbound).mp ?_
  rw [mul_pow, slope_sq_eq_weigh he, slope_sq_eq_weigh he]
  exact weigh_next_le he (sq_nonneg _) (sq_nonneg _) p

theorem norm_next_le (p : Point ℝ) :
    (q.objective.next (gradientSettings α ε) p).norm ≤ q.ratio α * p.norm := by
  obtain ⟨e, he⟩ := q.exists_principal_hessian
  refine (sq_le_sq₀ (Point.norm_nonneg _) (mul_nonneg (q.ratio_nonneg α) p.norm_nonneg)).mp ?_
  rw [mul_pow, e.norm_sq_eq_weigh, e.norm_sq_eq_weigh]
  exact weigh_next_le he zero_le_one zero_le_one p

variable {q} {p : Point ℝ} (hp : p ≠ .origin)

include hp

theorem evaluate_pos : 0 < q.objective.evaluate p := by
  obtain ⟨e, he⟩ := q.exists_principal_hessian
  obtain ⟨hsmall, hlarge⟩ := q.eigenvalues_pos
  rw [evaluate_eq_weigh he]
  exact e.weigh_pos (by positivity) (by positivity) hp

theorem slope_pos : 0 < q.objective.slope p := by
  obtain ⟨e, he⟩ := q.exists_principal_hessian
  obtain ⟨hsmall, hlarge⟩ := q.eigenvalues_pos
  have hsq : 0 < q.objective.slope p ^ 2 := by
    rw [slope_sq_eq_weigh he]
    exact e.weigh_pos (by positivity) (by positivity) hp
  exact lt_of_le_of_ne' (Objective.slope_nonneg _ p) (sq_pos_iff.mp hsq)

omit q in
theorem norm_pos : 0 < p.norm := by
  have hsq : 0 < p.norm ^ 2 := by
    rw [Axes.norm_sq_eq_weigh ⟨1, 0, by norm_num⟩]
    exact Axes.weigh_pos _ zero_lt_one zero_lt_one hp
  exact lt_of_le_of_ne' p.norm_nonneg (sq_pos_iff.mp hsq)

end Measures

/-- **Below the stability limit every step contracts**, other than from the minimizer. -/
theorem next_contracts (hα : 0 < α) (hlimit : α < q.objective.stabilityLimit) {p : Point ℝ}
    (hp : p ≠ .origin) :
    let f := q.objective
    let p' := f.next (gradientSettings α ε) p
    (f.evaluate p' < f.evaluate p ∧ f.evaluate p' ≤ q.ratio α * f.evaluate p) ∧
    (f.slope p' < f.slope p ∧ f.slope p' ≤ q.ratio α * f.slope p) ∧
    (p'.norm < p.norm ∧ p'.norm ≤ q.ratio α * p.norm) := by
  intro f p'
  have hratio : q.ratio α < 1 := ratio_lt_one hα hlimit
  have shrinks : ∀ {x x' : ℝ}, 0 < x → x' ≤ q.ratio α * x → x' < x ∧ x' ≤ q.ratio α * x :=
    fun hx h => ⟨h.trans_lt (mul_lt_of_lt_one_left hx hratio), h⟩
  have hsq : q.ratio α ^ 2 ≤ q.ratio α :=
    pow_le_of_le_one (q.ratio_nonneg α) hratio.le two_ne_zero
  have hvalue : f.evaluate p' ≤ q.ratio α * f.evaluate p :=
    (evaluate_next_le q α ε p).trans (mul_le_mul_of_nonneg_right hsq (evaluate_pos hp).le)
  exact ⟨shrinks (evaluate_pos hp) hvalue, shrinks (slope_pos hp) (slope_next_le q α ε p),
    shrinks (norm_pos hp) (norm_next_le q α ε p)⟩

/-! ## 3. All steps -/

/-- Below the stability limit the gradient shrinks with each step. -/
theorem slope_after_le (p : Point ℝ) : ∀ n : ℕ,
    q.objective.slope (q.objective.after (gradientSettings α ε) p n) ≤
      q.ratio α ^ n * q.objective.slope p
  | 0 => by rw [pow_zero, one_mul, Objective.after_zero]
  | n + 1 => by
    rw [Objective.after_succ]
    calc _ ≤ q.ratio α * q.objective.slope (q.objective.after (gradientSettings α ε) p n) :=
          slope_next_le q α ε _
      _ ≤ q.ratio α * (q.ratio α ^ n * q.objective.slope p) :=
          mul_le_mul_of_nonneg_left (slope_after_le p n) (q.ratio_nonneg α)
      _ = q.ratio α ^ (n + 1) * q.objective.slope p := by ring

/-- Hence some step meets the threshold, and one of them is the first. -/
theorem exists_isLeast_meets_gradientSettings (hα : 0 < α)
    (hlimit : α < q.objective.stabilityLimit) (hε : 0 < ε) (p : Point ℝ) :
    ∃ N, IsLeast { k | q.objective.Meets (gradientSettings α ε) p k } N :=
  Objective.exists_isLeast_meets (q.ratio_nonneg α) (ratio_lt_one hα hlimit) hε (slope_after_le p)

section Eigenvector

variable {v : Vec ℝ} {k : ℝ} (hv : q.objective.hessian.mulVec v = v * k)

include hv

theorem dot_gradient (p : Point ℝ) :
    v.dot (q.objective.gradient p) = k * v.dot p.toVec := by
  rw [gradient_eq_mulVec, hessian_eq, Mat.dot_mulVec_symmetric, ← hessian_eq, hv]
  simp only [Vec.dot_eq, Vec.mul_eq]
  ring

/-- Seen along an eigenvector, each step multiplies the point by the same number. -/
theorem dot_after (p : Point ℝ) : ∀ n : ℕ,
    v.dot (q.objective.after (gradientSettings α ε) p n).toVec =
      (1 - α * k) ^ n * v.dot p.toVec
  | 0 => by rw [pow_zero, one_mul, Objective.after_zero]
  | n + 1 => by
    have ih := dot_after p n
    have hgradient := dot_gradient hv (q.objective.after (gradientSettings α ε) p n)
    rw [Objective.after_succ, next_gradientSettings]
    simp only [Vec.dot_eq, Point.toVec] at ih hgradient ⊢
    linear_combination (1 - α * k) * ih - α * hgradient

/-- The gradient grows at least as fast as what is seen of it along an eigenvector. -/
theorem slope_after_ge {p : Point ℝ} (hk : 0 < k) (hp : v.dot p.toVec ≠ 0) :
    0 < k * |v.dot p.toVec| / v.norm ∧ ∀ n : ℕ,
      |1 - α * k| ^ n * (k * |v.dot p.toVec| / v.norm) ≤
        q.objective.slope (q.objective.after (gradientSettings α ε) p n) := by
  have hdot : 0 < |v.dot p.toVec| := abs_pos.mpr hp
  have hnorm : 0 < v.norm := by
    refine lt_of_le_of_ne' v.norm_nonneg fun hzero => ?_
    have hle := v.abs_dot_le p.toVec
    rw [hzero, zero_mul] at hle
    exact hle.not_gt hdot
  refine ⟨by positivity, fun n => ?_⟩
  have hle := v.abs_dot_le (q.objective.gradient (q.objective.after (gradientSettings α ε) p n))
  rw [dot_gradient hv, dot_after hv, abs_mul, abs_mul, abs_pow, abs_of_pos hk] at hle
  rw [← mul_div_assoc, div_le_iff₀ hnorm]
  calc |1 - α * k| ^ n * (k * |v.dot p.toVec|)
      = k * (|1 - α * k| ^ n * |v.dot p.toVec|) := by ring
    _ ≤ v.norm * _ := hle
    _ = _ := mul_comm _ _

end Eigenvector

/-- Above the stability limit the factor that belongs to the largest eigenvalue is more than one in
magnitude. -/
theorem one_lt_abs (hlimit : q.objective.stabilityLimit < α) :
    1 < |1 - α * q.objective.hessian.eigenvalues.2| := by
  rw [stabilityLimit_eq, div_lt_iff₀ q.eigenvalues_pos.2] at hlimit
  rw [lt_abs]
  right
  linarith

end QuadraticForm

/-! ## 4. Whole descents -/

variable [Scheduler σ] [WordSource γ]

/-- **The stability limit divides contraction from divergence.**

Let a session on a quadratic form be driven in any way from one restart up to the next, so that
every step is taken by plain gradient descent with step size `α`, without a constraint and with the
threshold `ε`.  Path and reported gradient norms are those of one function of the plane, repeated.
The limit is two over the largest eigenvalue of the Hessian.

If `α` is below the limit, then from every point but the minimizer the function leads to a smaller
value, a smaller gradient and closer to the minimizer, each by a ratio that is bounded away from
one.  Hence for every positive threshold there is a first step that meets it; a session never goes
beyond that step, it has converged exactly if it stands there, and a descent that may take enough
steps ends there.

If `α` is above the limit and the start is not perpendicular to every eigenvector of the largest
eigenvalue, then the gradients along the repetition are not bounded. -/
theorem Segment.stability_limit_divides (S : Segment ℝ σ γ) (q : QuadraticForm ℝ) {α ε : ℝ}
    (hobjective : S.first.objective = q.objective)
    (hsettings : ∀ c ∈ S.settings, c = ⟨.gradientDescent α, .unconstrained, ε⟩) :
    let f := q.objective
    let settings : Config ℝ := ⟨.gradientDescent α, .unconstrained, ε⟩
    let points := f.after settings S.first.start
    let n := S.last.iterationCount
    let largest := f.hessian.eigenvalues.2
    (IsGreatest { k | ∃ v, v ≠ ⟨0, 0⟩ ∧ f.hessian.mulVec v = v * k } largest ∧
      f.stabilityLimit = 2 / largest) ∧
    S.last.trajectory = (List.range (n + 1)).map points ∧
    S.events.map Event.gradientNorm = (List.range n).map (fun j => f.slope (points (j + 1))) ∧
    (0 < α → α < f.stabilityLimit →
      (∃ ρ, 0 ≤ ρ ∧ ρ < 1 ∧ ∀ p, p ≠ .origin →
        let p' := f.next settings p
        (f.evaluate p' < f.evaluate p ∧ f.evaluate p' ≤ ρ * f.evaluate p) ∧
        (f.slope p' < f.slope p ∧ f.slope p' ≤ ρ * f.slope p) ∧
        (p'.norm < p.norm ∧ p'.norm ≤ ρ * p.norm)) ∧
      (0 < ε → ∃ N, IsLeast { k | 1 ≤ k ∧ f.slope (points k) ≤ ε } N ∧ n ≤ N ∧
        (S.last.mode = .converged ↔ n = N) ∧
        (S.last.config = settings →
          ∀ {ω : Type} (observe : Observer ω ℝ) (w : ω) (limit : ℕ),
            (∀ w e, (observe w e).2 = false) → N ≤ n + limit →
            (S.last.descend observe limit w).value.1 =
              ⟨.converged, points N, f.evaluate (points N), f.slope (points N), N - n⟩))) ∧
    (f.stabilityLimit < α →
      ∀ v, f.hessian.mulVec v = v * largest → v.dot S.first.start.toVec ≠ 0 →
        ¬BddAbove (Set.range fun k => f.slope (points k))) := by
  intro f settings points n largest
  have hsteady : S.Steady settings := hsettings
  have hlargest : IsGreatest { k | ∃ v, v ≠ ⟨0, 0⟩ ∧ f.hessian.mulVec v = v * k } largest := by
    have h := Mat.isGreatest_eigenvalues (2 * q.a) q.b (2 * q.c)
    rw [← QuadraticForm.hessian_eq] at h
    exact h
  refine ⟨⟨hlargest, q.stabilityLimit_eq⟩, ?_, ?_, fun hα hlimit => ⟨?_, fun hε => ?_⟩, ?_⟩
  · rw [hsteady.trajectory_eq, hobjective]
  · rw [hsteady.events_eq, List.map_map, hobjective]
    exact List.map_congr_left fun j _ => Objective.gradientNorm_stepAfter _ _ _ j 1
  · exact ⟨q.ratio α, q.ratio_nonneg α, QuadraticForm.ratio_lt_one hα hlimit, fun p hp =>
      QuadraticForm.next_contracts hα hlimit hp⟩
  · obtain ⟨N, hN⟩ :=
      QuadraticForm.exists_isLeast_meets_gradientSettings hα hlimit hε S.first.start
    have hleast : IsLeast { k | S.first.objective.Meets settings S.first.start k } N := by
      rw [hobjective]
      exact hN
    refine ⟨N, hN, hsteady.iterationCount_le hleast.1, hsteady.converged_iff_eq hleast, ?_⟩
    intro hconfig ω observe w limit hobserve hreach
    rw [hsteady.descend_eq hconfig hleast hobserve hreach w, hobjective]
  · intro hlimit v hv hdot
    have hpos : 0 < largest := q.eigenvalues_pos.2
    obtain ⟨hseen, hslope⟩ := QuadraticForm.slope_after_ge hv hpos hdot
    exact Objective.not_bddAbove_slope (QuadraticForm.one_lt_abs hlimit) hseen hslope

/-- The form `x² + 2y²`. -/
def unequalForm : QuadraticForm ℝ where
  a := 1
  b := 0
  c := 2
  accepted := QuadraticForm.accepted_iff.mpr (by norm_num)

theorem eigenvalues_unequalForm : unequalForm.objective.hessian.eigenvalues = (2, 4) := by
  rw [QuadraticForm.hessian_eq, Mat.eigenvalues_eq]
  simp only [unequalForm, Mat.symmetric]
  norm_num

theorem gradient_unequalForm (p : Point ℝ) :
    unequalForm.objective.gradient p = ⟨2 * p.x, 4 * p.y⟩ := by
  rw [QuadraticForm.gradient_eq]
  simp only [unequalForm, Vec.mk.injEq]
  constructor <;> ring

theorem slope_unequalForm (x : ℝ) : unequalForm.objective.slope ⟨x, 0⟩ = 2 * |x| := by
  rw [Objective.slope, gradient_unequalForm, Vec.norm_eq, mul_zero, zero_pow two_ne_zero, add_zero,
    Real.sqrt_sq_eq_abs, abs_mul, abs_two]

/-- Steps of size 1/4 reach one axis at once, and go half of the way to the minimizer on it. -/
theorem after_unequalForm (x y ε : ℝ) : ∀ n : ℕ,
    unequalForm.objective.after ⟨.gradientDescent (1 / 4), .unconstrained, ε⟩ ⟨x, y⟩ (n + 1) =
      ⟨x / 2 ^ (n + 1), 0⟩
  | 0 => by
    refine (QuadraticForm.next_gradientSettings (ε := ε) ⟨x, y⟩).trans ?_
    rw [gradient_unequalForm, Point.mk.injEq]
    constructor <;> ring
  | n + 1 => by
    rw [Objective.after_succ, after_unequalForm x y ε n]
    refine (QuadraticForm.next_gradientSettings (ε := ε) ⟨_, 0⟩).trans ?_
    rw [gradient_unequalForm, Point.mk.injEq]
    constructor <;> ring

/-- The Hessian of `x² + 2y²` has the eigenvalues 2 and 4, and the stability limit is a half.  Steps
of size 1/4 from `(4, 3/2)` lead to `(2, 0)`, where the gradient is still longer than three units,
and on to `(1, 0)`, where a descent ends; with steps of size 1 the gradients are not bounded. -/
theorem steps_on_both_sides_of_the_limit :
    unequalForm.objective.stabilityLimit = 1 / 2 ∧
    (∃ S : Segment ℝ VirtualClock Xoshiro,
      S.first.objective = unequalForm.objective ∧ S.first.start = ⟨4, 3 / 2⟩ ∧
      S.settings = [⟨.gradientDescent (1 / 4), .unconstrained, 3⟩] ∧
      S.last.mode ≠ .converged ∧
      (S.last.descend (fun _ _ => ((), false)) 9 ()).value.1 =
        ⟨.converged, ⟨1, 0⟩, 1, 2, 1⟩) ∧
    (∃ S : Segment ℝ VirtualClock Xoshiro,
      S.first.objective = unequalForm.objective ∧ S.first.start = ⟨4, 3 / 2⟩ ∧
      S.settings = [⟨.gradientDescent 1, .unconstrained, 3⟩] ∧
      ¬BddAbove (Set.range fun k => unequalForm.objective.slope
        (unequalForm.objective.after ⟨.gradientDescent 1, .unconstrained, 3⟩ ⟨4, 3 / 2⟩ k))) := by
  have hlimit : unequalForm.objective.stabilityLimit = 1 / 2 := by
    rw [QuadraticForm.stabilityLimit_eq, eigenvalues_unequalForm]
    norm_num
  refine ⟨hlimit, ?_, ?_⟩
  · have hmade : (QuadraticForm.gradientSettings (1 / 4) 3).Made :=
      QuadraticForm.made_gradientSettings (by norm_num) three_pos
    let S := Segment.ofOneStep hmade unequalForm ⟨4, 3 / 2⟩
    have hsteady : S.Steady ⟨.gradientDescent (1 / 4), .unconstrained, 3⟩ :=
      fun c hc => List.mem_singleton.mp hc
    obtain ⟨-, -, -, hcontracts, -⟩ := S.stability_limit_divides unequalForm rfl hsteady
    obtain ⟨N, hN, -, hconverged, hdescend⟩ :=
      (hcontracts (by norm_num) (by rw [hlimit]; norm_num)).2 (by norm_num)
    have htwo : IsLeast { k : ℕ | 1 ≤ k ∧ unequalForm.objective.slope (unequalForm.objective.after
        ⟨.gradientDescent (1 / 4), .unconstrained, 3⟩ ⟨4, 3 / 2⟩ k) ≤ 3 } 2 := by
      refine ⟨⟨one_le_two, ?_⟩, fun k hk => ?_⟩
      · rw [after_unequalForm, slope_unequalForm]
        norm_num
      · obtain ⟨hk1, hmeets⟩ := hk
        by_contra hlt
        obtain rfl : k = 1 := by omega
        rw [after_unequalForm, slope_unequalForm] at hmeets
        norm_num at hmeets
    obtain rfl := hN.unique htwo
    have hcount : S.last.iterationCount = 1 := hsteady.length_events.symm
    rw [hcount] at hconverged hdescend
    refine ⟨S, rfl, rfl, rfl, fun hm => absurd (hconverged.mp hm) (by norm_num), ?_⟩
    refine (hdescend (Session.config_advance _) _ _ _ (fun _ _ => rfl) (by norm_num)).trans ?_
    have hstart : S.first.start = ⟨4, 3 / 2⟩ := rfl
    rw [hstart, after_unequalForm, slope_unequalForm]
    simp only [QuadraticForm.objective, unequalForm, Solution.mk.injEq, Point.mk.injEq]
    norm_num
  · have hmade : (QuadraticForm.gradientSettings 1 3).Made :=
      QuadraticForm.made_gradientSettings one_pos three_pos
    let S := Segment.ofOneStep hmade unequalForm ⟨4, 3 / 2⟩
    refine ⟨S, rfl, rfl, rfl, ?_⟩
    obtain ⟨-, -, -, -, hgrows⟩ := S.stability_limit_divides unequalForm rfl
      (fun c hc => List.mem_singleton.mp hc)
    refine hgrows (by rw [hlimit]; norm_num) ⟨0, 1⟩ ?_ ?_
    · refine (unequalForm.gradient_eq_mulVec ⟨0, 1⟩).symm.trans ?_
      rw [gradient_unequalForm, eigenvalues_unequalForm, Vec.mul_eq]
      norm_num
    · have hstart : S.first.start = ⟨4, 3 / 2⟩ := rfl
      rw [hstart, Vec.dot_eq]
      simp only [Point.toVec]
      norm_num

end Downhill

import Downhill.Proofs.Exact.Arithmetic

/-! # Damped Newton contracts geometrically

On a quadratic form the inverse Hessian takes the gradient at a point back to the point itself, so a
Newton step that is damped by `η` goes the fraction `η` of the way to the minimizer.  In exact
arithmetic a descent of such steps is therefore known in advance: after `n` of them point and
gradient are those of the start, shrunk by `(1 - η)ⁿ`, and the descent ends with the first step for
which this brings the gradient below the threshold.

The Hessian must not read as singular.  Otherwise the rule takes plain gradient steps.
-/

namespace Downhill

variable {σ γ : Type}

/-! ## 1. One step -/

namespace QuadraticForm

variable {q : QuadraticForm ℝ} {η ε : ℝ}

/-- The inverse that a Newton step uses, where it has one. -/
theorem newtonInverse?_eq (hdet : StepRule.singularTolerance ≤ q.objective.hessian.det) :
    StepRule.newtonInverse? q.objective =
      let det := q.objective.hessian.det
      some ⟨2 * q.c / det, -q.b / det, -q.b / det, 2 * q.a / det⟩ := by
  have hregular : StepRule.singularTolerance ≤ Scalar.abs q.objective.hessian.det := by
    rw [Exact.abs_eq, abs_of_pos q.det_hessian_pos]
    exact hdet
  have hinverse : StepRule.newtonInverse? q.objective =
      let det := q.objective.hessian.det
      some ⟨2.0 * q.c / det, -q.b / det, -q.b / det, 2.0 * q.a / det⟩ :=
    if_neg (by simpa using hregular)
  rw [hinverse]
  norm_num

/-- The inverse Hessian takes the gradient at a point to the point. -/
theorem mulVec_gradient {inverse : Mat ℝ}
    (hdet : StepRule.singularTolerance ≤ q.objective.hessian.det)
    (h : StepRule.newtonInverse? q.objective = some inverse) (p : Point ℝ) :
    inverse.mulVec (q.objective.gradient p) = p.toVec := by
  have hne : q.objective.hessian.det ≠ 0 := q.det_hessian_pos.ne'
  rw [newtonInverse?_eq hdet, Option.some.injEq] at h
  rw [← h, gradient_eq]
  simp only [Mat.mulVec, Point.toVec, Vec.mk.injEq, div_mul_eq_mul_div, ← add_div]
  constructor
  · rw [div_eq_iff hne, det_hessian]
    ring
  · rw [div_eq_iff hne, det_hessian]
    ring

/-- **A damped Newton step goes a fraction of the way to the minimizer.** -/
theorem propose_dampedNewton (hdet : StepRule.singularTolerance ≤ q.objective.hessian.det)
    (p : Point ℝ) : (StepRule.dampedNewton η).propose q.objective p = p.scale (1 - η) := by
  have hinverse := newtonInverse?_eq hdet
  have hstep : (StepRule.dampedNewton η).propose q.objective p = p.step (-p.toVec) η := by
    simp only [StepRule.propose, hinverse, mulVec_gradient hdet hinverse]
  rw [hstep, Point.step_neg]
  simp only [Point.toVec, Point.scale, Point.mk.injEq]
  constructor <;> ring

/-! ## 2. All steps -/

/-- The settings of a damped Newton descent without a constraint. -/
def newtonSettings (η ε : ℝ) : Config ℝ := ⟨.dampedNewton η, .unconstrained, ε⟩

section Steps

variable (hdet : StepRule.singularTolerance ≤ q.objective.hessian.det) (p : Point ℝ)

include hdet

theorem next_newtonSettings :
    q.objective.next (newtonSettings η ε) p = p.scale (1 - η) :=
  propose_dampedNewton hdet p

/-- Each step shrinks point and gradient once more. -/
theorem after_newtonSettings : ∀ n : ℕ,
    q.objective.after (newtonSettings η ε) p n = p.scale ((1 - η) ^ n)
  | 0 => by rw [pow_zero, Point.scale_one, Objective.after_zero]
  | n + 1 => by
    rw [Objective.after_succ, after_newtonSettings n, next_newtonSettings hdet, Point.scale_scale,
      pow_succ]

theorem slope_after_newtonSettings (hη : η ≤ 1) (n : ℕ) :
    q.objective.slope (q.objective.after (newtonSettings η ε) p n) =
      (1 - η) ^ n * (q.objective.gradient p).norm := by
  have hfactor : 0 ≤ (1 - η) ^ n := pow_nonneg (by linarith) n
  rw [after_newtonSettings hdet, slope_scale _ _ hfactor, Objective.slope, mul_comm]

theorem meets_newtonSettings_iff (hη : η ≤ 1) (n : ℕ) :
    q.objective.Meets (newtonSettings η ε) p n ↔
      1 ≤ n ∧ (1 - η) ^ n * (q.objective.gradient p).norm ≤ ε := by
  rw [Objective.Meets, slope_after_newtonSettings hdet p hη]
  rfl

/-- Some step meets the threshold, so there is a first one. -/
theorem exists_isLeast_meets (hη : 0 < η) (hη1 : η ≤ 1) (hε : 0 < ε) :
    ∃ N, IsLeast { k | q.objective.Meets (newtonSettings η ε) p k } N :=
  Objective.exists_isLeast_meets (by linarith) (by linarith : 1 - η < 1) hε fun n =>
    (slope_after_newtonSettings hdet p hη1 n).le

/-- A full step meets every threshold. -/
theorem isLeast_meets_one (hε : 0 < ε) :
    IsLeast { k | q.objective.Meets (newtonSettings 1 ε) p k } 1 := by
  refine ⟨(meets_newtonSettings_iff hdet p le_rfl 1).mpr ⟨le_rfl, ?_⟩, fun k hk => hk.1⟩
  rw [sub_self, pow_one, zero_mul]
  exact hε.le

end Steps

end QuadraticForm

/-! ## 3. Whole descents -/

variable [Scheduler σ] [WordSource γ]

/-- **Damped Newton contracts geometrically.**

Let a session on a quadratic form, whose Hessian has at least the determinant that the rule asks
for, be driven in any way from one restart up to the next, so that every step is taken by damped
Newton with damping `η`, without a constraint and with the threshold `ε`.  After `n` steps the
current point is the start shrunk by `(1 - η)ⁿ`, and so is the gradient; the path and the gradient
norms that were reported say the same of the steps before.  The session has converged exactly if
`n` is the least positive number of steps with `(1 - η)ⁿ ‖∇f(p)‖ ≤ ε`.  There always is one, a
session never goes beyond it, and a descent that may take enough steps ends there.  With full
steps, the first one converges at the minimizer. -/
theorem Segment.newton_contracts (S : Segment ℝ σ γ) (q : QuadraticForm ℝ) {η ε : ℝ}
    (hobjective : S.first.objective = q.objective)
    (hdet : StepRule.singularTolerance ≤ q.objective.hessian.det)
    (hη : 0 < η ∧ η ≤ 1) (hε : 0 < ε)
    (hsettings : ∀ c ∈ S.settings, c = ⟨.dampedNewton η, .unconstrained, ε⟩) :
    let p := S.first.start
    let gradient := q.objective.gradient p
    let n := S.last.iterationCount
    let meets := { k : ℕ | 1 ≤ k ∧ (1 - η) ^ k * gradient.norm ≤ ε }
    S.events.length = n ∧
    S.last.iterate = p.scale ((1 - η) ^ n) ∧
    q.objective.gradient S.last.iterate = gradient * (1 - η) ^ n ∧
    S.last.trajectory = (List.range (n + 1)).map (fun k => p.scale ((1 - η) ^ k)) ∧
    S.events.map Event.gradientNorm =
      (List.range n).map (fun j => (1 - η) ^ (j + 1) * gradient.norm) ∧
    (S.last.mode = .converged ↔ IsLeast meets n) ∧
    (∃ N, IsLeast meets N ∧ n ≤ N ∧
      (S.last.config = ⟨.dampedNewton η, .unconstrained, ε⟩ →
        ∀ {ω : Type} (observe : Observer ω ℝ) (w : ω) (limit : ℕ),
          (∀ w e, (observe w e).2 = false) → N ≤ n + limit →
          (S.last.descend observe limit w).value.1 =
            ⟨.converged, p.scale ((1 - η) ^ N), q.objective.evaluate p * ((1 - η) ^ N) ^ 2,
              (1 - η) ^ N * gradient.norm, N - n⟩)) ∧
    (η = 1 → 1 ≤ n → n = 1 ∧ S.last.mode = .converged ∧ S.last.iterate = q.minimizer) := by
  intro p gradient n meets
  have hsteady : S.Steady (QuadraticForm.newtonSettings η ε) := hsettings
  have hmeets : { k | S.first.objective.Meets (QuadraticForm.newtonSettings η ε) p k } = meets := by
    ext k
    rw [hobjective]
    exact QuadraticForm.meets_newtonSettings_iff hdet p hη.2 k
  have hiterate : S.last.iterate = p.scale ((1 - η) ^ n) := by
    rw [hsteady.iterate_eq, hobjective, QuadraticForm.after_newtonSettings hdet]
  have hconverged : S.last.mode = .converged ↔ IsLeast meets n := by
    rw [hsteady.converged_iff, hmeets]
  refine ⟨hsteady.length_events, hiterate, ?_, ?_, ?_, hconverged, ?_, ?_⟩
  · rw [hiterate, QuadraticForm.gradient_scale]
  · rw [hsteady.trajectory_eq, hobjective]
    exact List.map_congr_left fun k _ => QuadraticForm.after_newtonSettings hdet p k
  · rw [hsteady.events_eq, List.map_map, hobjective]
    refine List.map_congr_left fun j _ => ?_
    rw [Function.comp_apply, Objective.gradientNorm_stepAfter]
    exact QuadraticForm.slope_after_newtonSettings hdet p hη.2 (j + 1)
  · obtain ⟨N, hN⟩ := QuadraticForm.exists_isLeast_meets hdet p hη.1 hη.2 hε
    rw [← hobjective] at hN
    refine ⟨N, hmeets ▸ hN, hsteady.iterationCount_le hN.1, ?_⟩
    intro hconfig ω observe w limit hobserve hlimit
    rw [hsteady.descend_eq hconfig hN hobserve hlimit w, hobjective,
      QuadraticForm.slope_after_newtonSettings hdet p hη.2,
      QuadraticForm.after_newtonSettings hdet, QuadraticForm.evaluate_scale]
  · rintro rfl hn
    have hone := QuadraticForm.isLeast_meets_one hdet p hε
    rw [← hobjective] at hone
    have hn1 : n = 1 := Nat.le_antisymm (hsteady.iterationCount_le hone.1) hn
    refine ⟨hn1, hconverged.mpr (hn1 ▸ hmeets ▸ hone), ?_⟩
    rw [hiterate, hn1, sub_self, pow_one, Point.scale_zero, QuadraticForm.minimizer]

/-- The form `x² + y²`. -/
def roundForm : QuadraticForm ℝ where
  a := 1
  b := 0
  c := 1
  accepted := QuadraticForm.accepted_iff.mpr (by norm_num)

/-- Halving the distance to the minimizer at each step is a valid setting. -/
theorem made_halving : (QuadraticForm.newtonSettings (1 / 2) 3).Made := by
  refine .ofSettings (Config.ofSettings_eq_ok_iff.mpr ⟨rfl, ?_, rfl, ?_⟩)
  · simp only [QuadraticForm.newtonSettings, StepRule.check]
    norm_num
  · rw [Config.checkThreshold_eq_ok_iff]
    simp only [QuadraticForm.newtonSettings, Exact.isFinite_eq, true_and]
    norm_num

/-- A descent that halves the distance to the minimizer at each step, after its first one.  The
gradient, ten units long at the start, is still too long, and one more step ends the descent. -/
theorem newton_contracts_halfway :
    ∃ S : Segment ℝ VirtualClock Xoshiro,
      S.first.objective = roundForm.objective ∧ S.first.start = ⟨3, 4⟩ ∧ S.commands = [.step] ∧
      S.last.iterationCount = 1 ∧ S.last.iterate = ⟨3 / 2, 2⟩ ∧ S.last.mode ≠ .converged ∧
      (S.last.descend (fun _ _ => ((), false)) 9 ()).value.1 =
        ⟨.converged, ⟨3 / 4, 1⟩, 25 / 16, 5 / 2, 1⟩ := by
  have hdet : StepRule.singularTolerance ≤ roundForm.objective.hessian.det := by
    rw [QuadraticForm.det_hessian]
    simp only [StepRule.singularTolerance, roundForm]
    norm_num
  have hnorm : (roundForm.objective.gradient ⟨3, 4⟩).norm = 10 := by
    rw [QuadraticForm.gradient_eq, Vec.norm_eq, Real.sqrt_eq_iff_mul_self_eq_of_pos (by norm_num)]
    simp only [roundForm]
    norm_num
  have htwo : IsLeast { k : ℕ | 1 ≤ k ∧ (1 - 1 / 2 : ℝ) ^ k * 10 ≤ 3 } 2 := by
    refine ⟨⟨by norm_num, by norm_num⟩, fun k hk => ?_⟩
    by_contra hlt
    obtain rfl : k = 1 := by have := hk.1; omega
    exact absurd hk.2 (by norm_num)
  let S := Segment.ofOneStep made_halving roundForm ⟨3, 4⟩
  have hsteady : ∀ c ∈ S.settings, c = ⟨.dampedNewton (1 / 2), .unconstrained, 3⟩ :=
    fun c hc => List.mem_singleton.mp hc
  obtain ⟨hcount, hiterate, -, -, -, hconverged, ⟨N, hN, -, hdescend⟩, -⟩ :=
    S.newton_contracts roundForm rfl hdet (by norm_num) (by norm_num) hsteady
  have hstart : S.first.start = ⟨3, 4⟩ := rfl
  have hlength : S.events.length = 1 := rfl
  rw [hstart, hnorm] at hN hconverged hdescend
  obtain rfl := hN.unique htwo
  rw [← hcount, hlength] at hiterate hconverged hdescend
  refine ⟨S, rfl, rfl, rfl, hcount.symm.trans hlength, ?_, ?_, ?_⟩
  · rw [hiterate, hstart]
    simp only [Point.scale, Point.mk.injEq]
    norm_num
  · intro hm
    have := (hconverged.mp hm).unique htwo
    omega
  · rw [hdescend (Session.config_advance _) _ _ _ (fun _ _ => rfl) (by norm_num)]
    simp only [Point.scale, QuadraticForm.objective, roundForm, Solution.mk.injEq,
      Point.mk.injEq]
    norm_num

end Downhill

import Mathlib.Analysis.SpecialFunctions.Complex.Arg
import Downhill.Proofs.Exact.Arithmetic

/-! # The axes of a symmetric matrix

In exact arithmetic a symmetric matrix stretches the plane along two perpendicular axes, and the
factors are the two numbers that `Mat.eigenvalues` computes in closed form.

* `Axes`: two perpendicular axes, with the coordinates of a vector in them.
* `Mat.Principal`: the axes along which a matrix stretches.  `exists_principal`: a symmetric matrix
  has some.  They are found by halving an angle.
* `isGreatest_eigenvalues`: the larger of the two numbers is the largest eigenvalue.
* `QuadraticForm.gradient_eq_mulVec`, `two_mul_evaluate`: gradient and value by the Hessian,
  whose eigenvalues are positive.  `stabilityLimit_eq`: the stability limit is two over the larger.
-/

namespace Downhill

/-! ## 1. Axes -/

namespace Vec

theorem dot_eq (v w : Vec ℝ) : v.dot w = v.x * w.x + v.y * w.y := rfl

theorem norm_sq (v : Vec ℝ) : v.norm ^ 2 = v.x ^ 2 + v.y ^ 2 := by
  rw [norm_eq, Real.sq_sqrt (by positivity)]

/-- The inner product is at most the product of the lengths. -/
theorem abs_dot_le (v w : Vec ℝ) : |v.dot w| ≤ v.norm * w.norm := by
  have hnonneg : 0 ≤ v.norm * w.norm := mul_nonneg v.norm_nonneg w.norm_nonneg
  refine abs_le_of_sq_le_sq ?_ hnonneg
  rw [mul_pow, norm_sq, norm_sq, dot_eq]
  nlinarith [sq_nonneg (v.x * w.y - v.y * w.x)]

end Vec

/-- Two perpendicular axes through the origin.  The first one has the direction `(c, s)`, the cosine
and the sine of its angle, and the second one is a quarter turn further. -/
structure Axes where
  c : ℝ
  s : ℝ
  unit : c ^ 2 + s ^ 2 = 1

namespace Axes

variable (e : Axes) (v w : Vec ℝ)

/-- The coordinate of a vector on the first axis. -/
def along : ℝ := e.c * v.x + e.s * v.y

/-- The coordinate of a vector on the second axis. -/
def across : ℝ := e.c * v.y - e.s * v.x

/-- Inner products can be taken in the coordinates. -/
theorem dot_eq : v.dot w = e.along v * e.along w + e.across v * e.across w := by
  have h : e.along v * e.along w + e.across v * e.across w =
      (e.c ^ 2 + e.s ^ 2) * (v.x * w.x + v.y * w.y) := by
    simp only [along, across]
    ring
  rw [h, e.unit, one_mul, Vec.dot_eq]

theorem norm_sq_eq : v.norm ^ 2 = e.along v ^ 2 + e.across v ^ 2 := by
  have h := e.dot_eq v v
  rw [Vec.dot_eq] at h
  rw [Vec.norm_sq, sq, sq, sq, sq, h]

/-- The coordinates determine the vector. -/
theorem ext_coordinates {v w : Vec ℝ} (halong : e.along v = e.along w)
    (hacross : e.across v = e.across w) : v = w := by
  have hx : ∀ u : Vec ℝ, u.x = e.c * e.along u - e.s * e.across u := by
    intro u
    have h : e.c * e.along u - e.s * e.across u = (e.c ^ 2 + e.s ^ 2) * u.x := by
      simp only [along, across]
      ring
    rw [h, e.unit, one_mul]
  have hy : ∀ u : Vec ℝ, u.y = e.s * e.along u + e.c * e.across u := by
    intro u
    have h : e.s * e.along u + e.c * e.across u = (e.c ^ 2 + e.s ^ 2) * u.y := by
      simp only [along, across]
      ring
    rw [h, e.unit, one_mul]
  have h1 : v.x = w.x := by rw [hx v, hx w, halong, hacross]
  have h2 : v.y = w.y := by rw [hy v, hy w, halong, hacross]
  cases v; cases w; cases h1; cases h2; rfl

@[simp] theorem along_mul (k : ℝ) : e.along (v * k) = k * e.along v := by
  simp only [along, Vec.mul_eq]
  ring

@[simp] theorem across_mul (k : ℝ) : e.across (v * k) = k * e.across v := by
  simp only [across, Vec.mul_eq]
  ring

end Axes

/-! ## 2. The axes of a matrix -/

namespace Mat

/-- The matrix stretches along these axes, by its larger eigenvalue along the first one and by the
smaller one along the second. -/
structure Principal (m : Mat ℝ) (e : Axes) : Prop where
  along : ∀ v, e.along (m.mulVec v) = m.eigenvalues.2 * e.along v
  across : ∀ v, e.across (m.mulVec v) = m.eigenvalues.1 * e.across v

theorem mulVec_eq (m : Mat ℝ) (v : Vec ℝ) :
    m.mulVec v = ⟨m.a * v.x + m.b * v.y, m.c * v.x + m.d * v.y⟩ := rfl

theorem eigenvalues_eq (m : Mat ℝ) : m.eigenvalues =
    let half := √(((m.a - m.d) / 2) ^ 2 + m.b ^ 2)
    ((m.a + m.d) / 2 - half, (m.a + m.d) / 2 + half) := by
  have hhalf : ∀ x : ℝ, 0.5 * x = x / 2 := by
    intro x
    norm_num
    ring
  simp only [eigenvalues, trace, Exact.hypot_eq, hhalf]

/-- Every pair of numbers is a length in the direction of twice some angle. -/
theorem exists_half_angle (x y : ℝ) : ∃ e : Axes,
    √(x ^ 2 + y ^ 2) * (e.c ^ 2 - e.s ^ 2) = x ∧ √(x ^ 2 + y ^ 2) * (2 * e.s * e.c) = y := by
  set z : ℂ := ⟨x, y⟩
  have hnorm : √(x ^ 2 + y ^ 2) = ‖z‖ := by
    rw [Complex.norm_def, Complex.normSq_mk, sq, sq]
  have hangle : z.arg = 2 * (z.arg / 2) := by ring
  refine ⟨⟨Real.cos (z.arg / 2), Real.sin (z.arg / 2), Real.cos_sq_add_sin_sq _⟩, ?_, ?_⟩
  · rw [hnorm, ← Real.cos_two_mul', ← hangle]
    exact Complex.norm_mul_cos_arg z
  · rw [hnorm, ← Real.sin_two_mul, ← hangle]
    exact Complex.norm_mul_sin_arg z

/-- **A symmetric matrix stretches along perpendicular axes, by its eigenvalues.**  With the mean of
the diagonal taken off, the matrix is a length times a reflection, and it reflects in the axis of
half the angle. -/
theorem exists_principal (a off d : ℝ) : ∃ e, (symmetric a off d).Principal e := by
  obtain ⟨e, hx, hy⟩ := exists_half_angle ((a - d) / 2) off
  have hvalues := (symmetric a off d).eigenvalues_eq
  simp only [symmetric] at hvalues
  set half := √(((a - d) / 2) ^ 2 + off ^ 2)
  have hunit := e.unit
  refine ⟨e, fun v => ?_, fun v => ?_⟩
  · rw [symmetric, hvalues]
    simp only [Axes.along, mulVec_eq]
    linear_combination (e.s * v.y - e.c * v.x) * hx - (e.c * v.y + e.s * v.x) * hy +
      half * (e.c * v.x + e.s * v.y) * hunit
  · rw [symmetric, hvalues]
    simp only [Axes.across, mulVec_eq]
    linear_combination (e.c * v.y + e.s * v.x) * hx - (e.c * v.x - e.s * v.y) * hy +
      half * (e.s * v.x - e.c * v.y) * hunit

theorem eigenvalues_le (m : Mat ℝ) : m.eigenvalues.1 ≤ m.eigenvalues.2 := by
  rw [eigenvalues_eq]
  have hhalf := Real.sqrt_nonneg (((m.a - m.d) / 2) ^ 2 + m.b ^ 2)
  simp only
  linarith

theorem add_eigenvalues (m : Mat ℝ) : m.eigenvalues.1 + m.eigenvalues.2 = m.trace := by
  rw [eigenvalues_eq, trace]
  simp only
  ring

theorem mul_eigenvalues (a off d : ℝ) :
    (symmetric a off d).eigenvalues.1 * (symmetric a off d).eigenvalues.2 =
      (symmetric a off d).det := by
  rw [eigenvalues_eq, det]
  have hhalf : √(((a - d) / 2) ^ 2 + off ^ 2) ^ 2 = ((a - d) / 2) ^ 2 + off ^ 2 :=
    Real.sq_sqrt (by positivity)
  simp only [symmetric]
  linear_combination -hhalf

/-- A symmetric matrix can change sides in an inner product. -/
theorem dot_mulVec_symmetric (a off d : ℝ) (v w : Vec ℝ) :
    v.dot ((symmetric a off d).mulVec w) = ((symmetric a off d).mulVec v).dot w := by
  simp only [symmetric, mulVec_eq, Vec.dot_eq]
  ring

/-- **The larger of the two numbers is the largest eigenvalue.** -/
theorem isGreatest_eigenvalues (a off d : ℝ) :
    IsGreatest { k | ∃ v, v ≠ ⟨0, 0⟩ ∧ (symmetric a off d).mulVec v = v * k }
      (symmetric a off d).eigenvalues.2 := by
  obtain ⟨e, he⟩ := exists_principal a off d
  set m := symmetric a off d
  have hunit := e.unit
  constructor
  · -- The direction of the first axis is stretched by it.
    refine ⟨⟨e.c, e.s⟩, fun hzero => ?_, e.ext_coordinates ?_ ?_⟩
    · obtain ⟨hc, hs⟩ := Vec.mk.inj hzero
      rw [hc, hs] at hunit
      norm_num at hunit
    · rw [he.along, e.along_mul]
    · have hacross : e.across ⟨e.c, e.s⟩ = 0 := by
        simp only [Axes.across]
        ring
      rw [he.across, e.across_mul, hacross, mul_zero, mul_zero]
  · -- A vector that is stretched by another number has a coordinate that says which one it is.
    rintro k ⟨v, hv, hk⟩
    have halong := he.along v
    have hacross := he.across v
    rw [hk, e.along_mul] at halong
    rw [hk, e.across_mul] at hacross
    by_cases h : e.along v = 0
    · have h' : e.across v ≠ 0 := fun h' => hv (e.ext_coordinates
        (by rw [h, Axes.along]; ring) (by rw [h', Axes.across]; ring))
      rw [mul_right_cancel₀ h' hacross]
      exact m.eigenvalues_le
    · rw [mul_right_cancel₀ h halong]

end Mat

/-! ## 3. The axes of a quadratic form -/

namespace QuadraticForm

variable (q : QuadraticForm ℝ)

theorem hessian_eq : q.objective.hessian = .symmetric (2 * q.a) q.b (2 * q.c) := by
  simp only [objective]
  norm_num

theorem exists_principal_hessian : ∃ e, q.objective.hessian.Principal e := by
  rw [hessian_eq]
  exact Mat.exists_principal _ _ _

/-- The gradient is the image of the point under the Hessian, -/
theorem gradient_eq_mulVec (p : Point ℝ) :
    q.objective.gradient p = q.objective.hessian.mulVec p.toVec := by
  rw [gradient_eq, hessian_eq]
  rfl

/-- and the value is half of what the point makes with it. -/
theorem two_mul_evaluate (p : Point ℝ) :
    2 * q.objective.evaluate p = p.toVec.dot (q.objective.gradient p) := by
  rw [gradient_eq, Vec.dot_eq]
  simp only [objective, Point.toVec]
  ring

/-- Both eigenvalues of the Hessian are positive. -/
theorem eigenvalues_pos :
    0 < q.objective.hessian.eigenvalues.1 ∧ 0 < q.objective.hessian.eigenvalues.2 := by
  obtain ⟨ha, hdiscriminant⟩ := accepted_iff.mp q.accepted
  have hc : 0 < q.c := by
    have hb := mul_self_nonneg q.b
    exact (pos_iff_pos_of_mul_pos (by linarith : 0 < 4 * q.a * q.c)).mp (by linarith)
  have hsum := q.objective.hessian.add_eigenvalues
  have hle := q.objective.hessian.eigenvalues_le
  have hproduct := Mat.mul_eigenvalues (2 * q.a) q.b (2 * q.c)
  rw [← hessian_eq] at hproduct
  have htrace : q.objective.hessian.trace = 2 * q.a + 2 * q.c := by
    rw [hessian_eq]
    rfl
  have hlargest : 0 < q.objective.hessian.eigenvalues.2 := by linarith
  have hdet := q.det_hessian_pos
  rw [← hproduct] at hdet
  exact ⟨(pos_iff_pos_of_mul_pos hdet).mpr hlargest, hlargest⟩

/-- The stability limit is two over the largest eigenvalue of the Hessian. -/
theorem stabilityLimit_eq :
    q.objective.stabilityLimit = 2 / q.objective.hessian.eigenvalues.2 := by
  have hpos := q.eigenvalues_pos.2
  have hlargest : (0.0 : ℝ) < q.objective.hessian.eigenvalues.2 := by
    norm_num
    exact hpos
  have h : q.objective.stabilityLimit = 2.0 / q.objective.hessian.eigenvalues.2 :=
    if_pos hlargest
  rw [h]
  norm_num

end QuadraticForm

end Downhill

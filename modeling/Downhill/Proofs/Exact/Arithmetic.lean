import Mathlib.Analysis.SpecialFunctions.Trigonometric.Basic
import Mathlib.Analysis.SpecificLimits.Basic
import Downhill.Proofs.Session.Steady

/-! # Descents in exact arithmetic

What is true of a descent up to rounding is true of the same formulas over the real numbers.  The
reals are one more type of numbers: nothing is rounded, every number is finite, and comparisons are
those of a total order.  Whatever is proved of sessions over any numbers holds of sessions over the
reals; what is proved here and in the modules that build on it holds of them alone.

* The `Scalar` instance of the reals, and what its operations are in the words of the library.
* Quadratic forms: what it means there to be accepted, the determinant of the Hessian, and how
  value and gradient change when a point is moved towards the origin.
* If the gradient shrinks at a geometric rate, every threshold is met after finitely many steps; if
  some measure of it grows at such a rate, none is for good.
-/

namespace Downhill

/-! ## 1. The real numbers -/

/-- The real numbers.  A word stands for its upper 52 bits behind the point, and no number is the
largest below another: the widest draw from a range ends exactly at its end. -/
noncomputable instance : Scalar ℝ where
  beq x y := decide (x = y)
  decLe x y := Classical.propDecidable (x ≤ y)
  decLt x y := Classical.propDecidable (x < y)
  abs x := |x|
  sqrt := Real.sqrt
  hypot x y := √(x ^ 2 + y ^ 2)
  cos := Real.cos
  sin := Real.sin
  isFinite _ := true
  unitOfWord word := (word >>> 12).toNat / (2 ^ 52 : ℕ)
  below x := x
  rank _ := 0

namespace Exact

@[simp] theorem isFinite_eq (x : ℝ) : Scalar.isFinite x = true := rfl

theorem abs_eq (x : ℝ) : Scalar.abs x = |x| := rfl

theorem hypot_eq (x y : ℝ) : Scalar.hypot x y = √(x ^ 2 + y ^ 2) := rfl

end Exact

/-! ## 2. Points and vectors -/

namespace Vec

theorem mul_eq (v : Vec ℝ) (s : ℝ) : v * s = ⟨v.x * s, v.y * s⟩ := rfl

theorem norm_eq (v : Vec ℝ) : v.norm = √(v.x ^ 2 + v.y ^ 2) := Exact.hypot_eq v.x v.y

theorem norm_nonneg (v : Vec ℝ) : 0 ≤ v.norm := Real.sqrt_nonneg _

/-- A vector that is shortened by a factor gets shorter by that factor. -/
theorem norm_mul (v : Vec ℝ) {s : ℝ} (hs : 0 ≤ s) : (v * s).norm = v.norm * s := by
  have h : (v.x * s) ^ 2 + (v.y * s) ^ 2 = (v.x ^ 2 + v.y ^ 2) * s ^ 2 := by ring
  calc (v * s).norm = √((v.x * s) ^ 2 + (v.y * s) ^ 2) := rfl
    _ = √(v.x ^ 2 + v.y ^ 2) * √(s ^ 2) := by rw [h, Real.sqrt_mul (by positivity)]
    _ = v.norm * s := by rw [Real.sqrt_sq hs, norm_eq]

end Vec

namespace Point

theorem step_neg (p : Point ℝ) (v : Vec ℝ) (s : ℝ) :
    p.step (-v) s = ⟨p.x - v.x * s, p.y - v.y * s⟩ := by
  have h : p.step (-v) s = ⟨p.x + -v.x * s, p.y + -v.y * s⟩ := rfl
  rw [h, neg_mul, neg_mul, ← sub_eq_add_neg, ← sub_eq_add_neg]

theorem origin_eq : (origin : Point ℝ) = ⟨0, 0⟩ := by
  simp only [origin, mk.injEq]
  norm_num

theorem norm_nonneg (p : Point ℝ) : 0 ≤ p.norm := p.toVec.norm_nonneg

theorem scale_one (p : Point ℝ) : p.scale 1 = p := by
  simp [scale]

theorem scale_scale (p : Point ℝ) (s t : ℝ) : (p.scale s).scale t = p.scale (s * t) := by
  simp [scale, mul_assoc]

theorem scale_zero (p : Point ℝ) : p.scale 0 = .origin := by
  rw [origin_eq, scale, mul_zero, mul_zero]

end Point

/-! ## 3. Quadratic forms -/

theorem Objective.slope_nonneg (f : Objective ℝ) (p : Point ℝ) : 0 ≤ f.slope p :=
  (f.gradient p).norm_nonneg

namespace QuadraticForm

/-- Exactly the positive definite forms are accepted. -/
theorem accepted_iff {a b c : ℝ} : Accepted a b c ↔ 0 < a ∧ 0 < 4 * a * c - b * b := by
  have hfinite : finiteCoefficients a b c = true := rfl
  rw [Accepted, discriminant, and_iff_right hfinite]
  norm_num

variable (q : QuadraticForm ℝ)

/-- The determinant of the Hessian is the discriminant, -/
theorem det_hessian : q.objective.hessian.det = 4 * q.a * q.c - q.b * q.b := by
  simp only [objective, Mat.det, Mat.symmetric]
  norm_num
  ring

/-- which is positive. -/
theorem det_hessian_pos : 0 < q.objective.hessian.det := by
  rw [det_hessian]
  exact (accepted_iff.mp q.accepted).2

theorem gradient_eq (p : Point ℝ) : q.objective.gradient p =
    ⟨2 * q.a * p.x + q.b * p.y, q.b * p.x + 2 * q.c * p.y⟩ := by
  simp only [objective, Vec.mk.injEq]
  norm_num

/-- The gradient is linear, -/
theorem gradient_scale (p : Point ℝ) (s : ℝ) :
    q.objective.gradient (p.scale s) = q.objective.gradient p * s := by
  rw [gradient_eq, gradient_eq]
  simp only [Point.scale, Vec.mul_eq, Vec.mk.injEq]
  constructor <;> ring

/-- and the value is quadratic. -/
theorem evaluate_scale (p : Point ℝ) (s : ℝ) :
    q.objective.evaluate (p.scale s) = q.objective.evaluate p * s ^ 2 := by
  simp only [objective, Point.scale]
  ring

theorem slope_scale (p : Point ℝ) {s : ℝ} (hs : 0 ≤ s) :
    q.objective.slope (p.scale s) = q.objective.slope p * s := by
  rw [Objective.slope, gradient_scale, Vec.norm_mul _ hs, Objective.slope]

end QuadraticForm

/-! ## 4. Descents whose gradient shrinks -/

namespace Objective

variable {f : Objective ℝ} {config : Config ℝ} {p : Point ℝ} {ρ C : ℝ}

/-- **A gradient that shrinks at a geometric rate meets every threshold**, so there is a first step
that does. -/
theorem exists_isLeast_meets (hρ : 0 ≤ ρ) (hρ1 : ρ < 1) (hthreshold : 0 < config.threshold)
    (hslope : ∀ n, f.slope (f.after config p n) ≤ ρ ^ n * C) :
    ∃ N, IsLeast { k | f.Meets config p k } N := by
  have hbound : 0 < config.threshold / (|C| + 1) := by positivity
  obtain ⟨m, hm⟩ := exists_pow_lt_of_lt_one hbound hρ1
  rw [lt_div_iff₀ (by positivity)] at hm
  have hpow : 0 ≤ ρ ^ (m + 1) := pow_nonneg hρ _
  have hfactor : ρ ^ (m + 1) ≤ ρ ^ m := pow_le_pow_of_le_one hρ hρ1.le m.le_succ
  have hmeets : f.Meets config p (m + 1) := by
    refine ⟨m.succ_pos, ?_⟩
    calc f.slope (f.after config p (m + 1)) ≤ ρ ^ (m + 1) * C := hslope _
      _ ≤ ρ ^ (m + 1) * (|C| + 1) := by gcongr; linarith [le_abs_self C]
      _ ≤ ρ ^ m * (|C| + 1) := by gcongr
      _ ≤ config.threshold := hm.le
  exact ⟨_, isLeast_csInf ⟨_, hmeets⟩⟩

/-- A gradient that is measured by something that grows at a geometric rate is not bounded. -/
theorem not_bddAbove_slope (hρ : 1 < ρ) (hC : 0 < C)
    (hslope : ∀ n, ρ ^ n * C ≤ f.slope (f.after config p n)) :
    ¬BddAbove (Set.range fun n => f.slope (f.after config p n)) := by
  rintro ⟨B, hB⟩
  obtain ⟨n, hn⟩ := pow_unbounded_of_one_lt (B / C) hρ
  rw [div_lt_iff₀ hC] at hn
  have hbound : f.slope (f.after config p n) ≤ B := hB (Set.mem_range_self n)
  exact absurd (hslope n) (by linarith)

end Objective

/-- A session on a form, after its first step. -/
noncomputable def Segment.ofOneStep {config : Config ℝ} (hmade : config.Made) (q : QuadraticForm ℝ)
    (p : Point ℝ) : Segment ℝ VirtualClock Xoshiro :=
  .ofOpened (.new hmade
      (rfl : Session.new q.objective config p VirtualClock.new (Xoshiro.ofSeed 7) = .ok _))
    [.step] (by simp [Command.restarts]) rfl

end Downhill

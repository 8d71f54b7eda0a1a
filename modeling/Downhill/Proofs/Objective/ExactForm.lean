import Downhill.Proofs.Binary64.Nearness

/-! # Forms over the rationals

What rounded steps on a form do is measured against the form with the same coefficients over the
rationals.  A step that misses the point it aims at is judged in two ways.

* Small errors of the coordinates move the value by little, relative to the scale of its terms
  (`value_add_le_of_small`).
* Errors of a Newton direction may be large as coordinates, as they are amplified by the inverse
  Hessian.  The form itself does not see them so: seen as a length, it amplifies the error of a
  gradient no more than the gradient of the point (`value_adjugate_le`), and its square root obeys
  the triangle inequality (`value_add_le`).

So a Newton step with rounded data takes nearly the part of the value that it should
(`value_newton_le`), as long as `u t² / D` is small, where `D` is the determinant of the Hessian, `t`
half of its trace and `u` the relative error of one rounding.
-/

namespace Downhill

open Binary64

/-- A positive definite form with rational coefficients. -/
structure ExactForm where
  a : ℚ
  b : ℚ
  c : ℚ
  a_pos : 0 < a
  definite : 0 < 4 * a * c - b ^ 2

namespace ExactForm

variable (f : ExactForm) {x y z w : ℚ}

/-! ## 1. Values and slopes -/

/-- Half of the trace of the Hessian. -/
def halfTrace : ℚ := f.a + f.c

/-- The determinant of the Hessian. -/
def det : ℚ := 4 * f.a * f.c - f.b ^ 2

theorem det_pos : 0 < f.det := f.definite

def value (x y : ℚ) : ℚ := f.a * x * x + f.b * x * y + f.c * y * y

/-- The components of the gradient. -/
def slopeX (x y : ℚ) : ℚ := 2 * f.a * x + f.b * y

def slopeY (x y : ℚ) : ℚ := f.b * x + 2 * f.c * y

theorem c_pos : 0 < f.c := by
  have hproduct : 0 < 4 * f.a * f.c := by linarith [f.definite, sq_nonneg f.b]
  exact pos_of_mul_pos_right hproduct (by linarith [f.a_pos])

theorem halfTrace_pos : 0 < f.halfTrace := add_pos f.a_pos f.c_pos

theorem det_le : f.det ≤ f.halfTrace ^ 2 := by
  rw [det, halfTrace]
  linarith [sq_nonneg (f.a - f.c), sq_nonneg f.b,
    show (f.a + f.c) ^ 2 = (f.a - f.c) ^ 2 + 4 * f.a * f.c by ring]

theorem a_le : f.a ≤ f.halfTrace := le_add_of_nonneg_right f.c_pos.le

theorem c_le : f.c ≤ f.halfTrace := le_add_of_nonneg_left f.a_pos.le

theorem abs_b_le : |f.b| ≤ f.halfTrace := by
  refine abs_le_of_sq_le_sq ?_ f.halfTrace_pos.le
  have hdet := f.definite
  rw [halfTrace]
  linarith [sq_nonneg (f.a - f.c),
    show (f.a + f.c) ^ 2 = (f.a - f.c) ^ 2 + 4 * f.a * f.c by ring]

/-- The form with the coordinates exchanged. -/
def swap : ExactForm where
  a := f.c
  b := f.b
  c := f.a
  a_pos := f.c_pos
  definite := by linarith [f.definite]

/-- The form of the adjugate matrix. -/
def adjugate : ExactForm where
  a := f.c
  b := -f.b
  c := f.a
  a_pos := f.c_pos
  definite := by linarith [f.definite, neg_sq f.b]

@[simp] theorem halfTrace_swap : f.swap.halfTrace = f.halfTrace := add_comm _ _

@[simp] theorem det_swap : f.swap.det = f.det := by
  simp only [det, swap]
  ring

@[simp] theorem value_swap : f.swap.value y x = f.value x y := by
  simp only [value, swap]
  ring

@[simp] theorem slopeX_swap : f.swap.slopeX y x = f.slopeY x y := by
  simp only [slopeX, slopeY, swap]
  ring

theorem four_mul_value : 4 * f.a * f.value x y = f.slopeX x y ^ 2 + f.det * y ^ 2 := by
  simp only [value, slopeX, det]
  ring

theorem value_nonneg (x y : ℚ) : 0 ≤ f.value x y := by
  have hsum : 0 ≤ 4 * f.a * f.value x y := by
    rw [four_mul_value]
    have := mul_nonneg f.det_pos.le (sq_nonneg y)
    exact add_nonneg (sq_nonneg _) this
  exact nonneg_of_mul_nonneg_right hsum (by linarith [f.a_pos])

theorem value_smul (s x y : ℚ) : f.value (s * x) (s * y) = s ^ 2 * f.value x y := by
  simp only [value]
  ring

/-- The form is at most half of the trace times the square of the distance: the rest is the form of
the adjugate matrix. -/
theorem value_add_adjugate :
    f.value x y + f.adjugate.value x y = f.halfTrace * (x ^ 2 + y ^ 2) := by
  simp only [value, adjugate, halfTrace]
  ring

theorem value_le : f.value x y ≤ f.halfTrace * (x ^ 2 + y ^ 2) := by
  linarith [f.value_add_adjugate (x := x) (y := y), f.adjugate.value_nonneg x y]

theorem value_le_of_abs {r : ℚ} (hx : |x| ≤ r) (hy : |y| ≤ r) :
    f.value x y ≤ 2 * f.halfTrace * r ^ 2 := by
  have hsquares : x ^ 2 + y ^ 2 ≤ 2 * r ^ 2 := by
    linarith [sq_le_sq' (abs_le.mp hx).1 (abs_le.mp hx).2,
      sq_le_sq' (abs_le.mp hy).1 (abs_le.mp hy).2]
  refine f.value_le.trans ?_
  linarith [mul_le_mul_of_nonneg_left hsquares f.halfTrace_pos.le]

/-- The slope is small where the value is, -/
theorem sq_slopeX_le : f.slopeX x y ^ 2 ≤ 4 * f.halfTrace * f.value x y := by
  have hrest := mul_nonneg f.det_pos.le (sq_nonneg y)
  have htrace := mul_le_mul_of_nonneg_right f.a_le (f.value_nonneg x y)
  linarith [f.four_mul_value (x := x) (y := y)]

/-- and the point is near. -/
theorem det_mul_sq_le : f.det * max |x| |y| ^ 2 ≤ 4 * f.halfTrace * f.value x y := by
  have hx := f.four_mul_value (x := x) (y := y)
  have hy := f.swap.four_mul_value (x := y) (y := x)
  rw [value_swap, det_swap] at hy
  have ha := mul_le_mul_of_nonneg_right f.a_le (f.value_nonneg x y)
  have hc : f.swap.a * f.value x y ≤ f.halfTrace * f.value x y :=
    mul_le_mul_of_nonneg_right f.c_le (f.value_nonneg x y)
  rcases max_choice |x| |y| with h | h <;> rw [h, sq_abs]
  · linarith [sq_nonneg (f.swap.slopeX y x)]
  · linarith [sq_nonneg (f.slopeX x y)]

/-- The adjugate matrix takes the slope back to the point, up to the determinant. -/
theorem adjugate_slope : 2 * f.c * f.slopeX x y - f.b * f.slopeY x y = f.det * x ∧
    2 * f.a * f.slopeY x y - f.b * f.slopeX x y = f.det * y := by
  simp only [slopeX, slopeY, det]
  constructor <;> ring

theorem abs_slopeX_le {r : ℚ} (hx : |x| ≤ r) (hy : |y| ≤ r) :
    |f.slopeX x y| ≤ (2 * f.a + f.halfTrace) * r := by
  have hr : 0 ≤ r := (abs_nonneg x).trans hx
  have hfirst : |2 * f.a * x| ≤ 2 * f.a * r := by
    rw [abs_mul, abs_of_pos (by linarith [f.a_pos])]
    exact mul_le_mul_of_nonneg_left hx (by linarith [f.a_pos])
  have hsecond : |f.b * y| ≤ f.halfTrace * r := by
    rw [abs_mul]
    exact mul_le_mul f.abs_b_le hy (abs_nonneg y) f.halfTrace_pos.le
  refine (abs_add_le _ _).trans ?_
  linarith

theorem abs_slopeY_le {r : ℚ} (hx : |x| ≤ r) (hy : |y| ≤ r) :
    |f.slopeY x y| ≤ (2 * f.c + f.halfTrace) * r := by
  rw [← slopeX_swap, ← halfTrace_swap]
  exact f.swap.abs_slopeX_le hy hx

/-! ## 2. Errors -/

section Errors

variable {m v r e ε δ : ℚ}

/-- Small errors of the coordinates. -/
theorem value_add_le_of_small (hx : |x| ≤ r) (hy : |y| ≤ r) (hz : |z| ≤ e) (hw : |w| ≤ e) :
    f.value (x + z) (y + w) ≤ f.value x y + f.halfTrace * (4 * r * e + 2 * e ^ 2) := by
  have hparts : f.value (x + z) (y + w) =
      f.value x y + (f.slopeX x y * z + f.slopeY x y * w) + f.value z w := by
    simp only [value, slopeX, slopeY]
    ring
  have hcross (s d l : ℚ) (hs : |s| ≤ l) (hd : |d| ≤ e) : s * d ≤ l * e :=
    (le_abs_self _).trans <| by
      rw [abs_mul]
      exact mul_le_mul hs hd (abs_nonneg d) ((abs_nonneg s).trans hs)
  have hfirst := hcross _ _ _ (f.abs_slopeX_le hx hy) hz
  have hsecond := hcross _ _ _ (f.abs_slopeY_le hx hy) hw
  have hsum : (2 * f.a + f.halfTrace) * r * e + (2 * f.c + f.halfTrace) * r * e =
      f.halfTrace * (4 * r * e) := by
    rw [halfTrace]
    ring
  rw [hparts]
  linarith [f.value_le_of_abs hz hw]

/-- **The triangle inequality** for the square root of the value. -/
theorem value_add_le (hε : 0 < ε) (hδ : 0 < δ) (hx : f.value x y ≤ ε ^ 2 * v)
    (hz : f.value z w ≤ δ ^ 2 * v) : f.value (x + z) (y + w) ≤ (ε + δ) ^ 2 * v := by
  have hparts : ε * δ * f.value (x + z) (y + w) + f.value (δ * x - ε * z) (δ * y - ε * w) =
      (ε + δ) * (δ * f.value x y + ε * f.value z w) := by
    simp only [value]
    ring
  have hbounds : (ε + δ) * (δ * f.value x y + ε * f.value z w) ≤
      (ε + δ) * (δ * (ε ^ 2 * v) + ε * (δ ^ 2 * v)) :=
    mul_le_mul_of_nonneg_left (add_le_add (mul_le_mul_of_nonneg_left hx hδ.le)
      (mul_le_mul_of_nonneg_left hz hε.le)) (add_pos hε hδ).le
  refine le_of_mul_le_mul_left ?_ (mul_pos hε hδ)
  calc ε * δ * f.value (x + z) (y + w)
      ≤ (ε + δ) * (δ * f.value x y + ε * f.value z w) := by
        linarith [f.value_nonneg (δ * x - ε * z) (δ * y - ε * w)]
    _ ≤ (ε + δ) * (δ * (ε ^ 2 * v) + ε * (δ ^ 2 * v)) := hbounds
    _ = ε * δ * ((ε + δ) ^ 2 * v) := by ring

theorem value_adjugate : f.value (2 * f.c * z - f.b * w) (2 * f.a * w - f.b * z) =
    f.det * f.adjugate.value z w := by
  simp only [value, adjugate, det]
  ring

/-- **Errors of a slope under the adjugate matrix**: relative to the scale of the slope they become
errors relative to the point, as the form sees it. -/
theorem value_adjugate_le (hz : |z| ≤ e * (f.halfTrace * max |x| |y|))
    (hw : |w| ≤ e * (f.halfTrace * max |x| |y|)) :
    f.value (2 * f.c * z - f.b * w) (2 * f.a * w - f.b * z) ≤
      (3 * (e * f.halfTrace ^ 2)) ^ 2 * f.value x y := by
  have hvalue := f.value_nonneg x y
  have hadjugate := f.adjugate.value_le_of_abs hz hw
  have htrace : f.adjugate.halfTrace = f.halfTrace := add_comm _ _
  rw [htrace] at hadjugate
  have hpoint := mul_le_mul_of_nonneg_left (f.det_mul_sq_le (x := x) (y := y))
    (mul_nonneg (pow_nonneg f.halfTrace_pos.le 3) (sq_nonneg e))
  have hrest : 0 ≤ (e * f.halfTrace ^ 2) ^ 2 * f.value x y := mul_nonneg (sq_nonneg _) hvalue
  rw [value_adjugate]
  calc f.det * f.adjugate.value z w
      ≤ f.det * (2 * f.halfTrace * (e * (f.halfTrace * max |x| |y|)) ^ 2) :=
        mul_le_mul_of_nonneg_left hadjugate f.det_pos.le
    _ = 2 * (f.halfTrace ^ 3 * e ^ 2 * (f.det * max |x| |y| ^ 2)) := by ring
    _ ≤ 2 * (f.halfTrace ^ 3 * e ^ 2 * (4 * f.halfTrace * f.value x y)) :=
        mul_le_mul_of_nonneg_left hpoint zero_le_two
    _ = 8 * ((e * f.halfTrace ^ 2) ^ 2 * f.value x y) := by ring
    _ ≤ 9 * ((e * f.halfTrace ^ 2) ^ 2 * f.value x y) :=
        mul_le_mul_of_nonneg_right (by norm_num) hrest
    _ = (3 * (e * f.halfTrace ^ 2)) ^ 2 * f.value x y := by ring

end Errors

/-! ## 3. Newton steps -/

/-- A slope that has been computed with rounding errors, counted in units of its scale. -/
structure NearSlope (x y gx gy : ℚ) : Prop where
  slopeX : |gx - f.slopeX x y| ≤ 7 * unitPart * (f.halfTrace * max |x| |y|)
  slopeY : |gy - f.slopeY x y| ≤ 7 * unitPart * (f.halfTrace * max |x| |y|)

/-- What a Newton step computes at a point in rounded arithmetic: besides the slope the determinant,
and the direction, which is the product of the adjugate matrix and the computed slope divided by
the computed determinant. -/
structure NearNewton (x y gx gy d dx dy : ℚ) : Prop extends f.NearSlope x y gx gy where
  det : |d - f.det| ≤ 11 * unitPart * f.halfTrace ^ 2
  directionX : |d * dx - (2 * f.c * gx - f.b * gy)| ≤
    14 * unitPart * (f.halfTrace * max |gx| |gy|)
  directionY : |d * dy - (2 * f.a * gy - f.b * gx)| ≤
    14 * unitPart * (f.halfTrace * max |gx| |gy|)

variable {f} {gx gy d dx dy η : ℚ}

namespace NearSlope

variable (h : f.NearSlope x y gx gy)

include h

theorem swap : f.swap.NearSlope y x gy gx where
  slopeX := by
    rw [slopeX_swap, halfTrace_swap, max_comm]
    exact h.slopeY
  slopeY := by
    rw [← slopeX_swap, halfTrace_swap, max_comm]
    exact h.slopeX

theorem abs_slope_le : |gx| ≤ 4 * (f.halfTrace * max |x| |y|) := by
  have hm : 0 ≤ max |x| |y| := (abs_nonneg x).trans (le_max_left _ _)
  have hslope := f.abs_slopeX_le (le_max_left |x| |y|) (le_max_right |x| |y|)
  have hcoefficient := mul_le_mul_of_nonneg_right f.a_le hm
  have hscale := mul_nonneg f.halfTrace_pos.le hm
  have herror := h.slopeX
  rw [unitPart_eq] at herror
  linarith [abs_sub_abs_le_abs_sub gx (f.slopeX x y)]

/-- The computed slope is not larger than that of the scale, -/
theorem max_abs_le : max |gx| |gy| ≤ 4 * (f.halfTrace * max |x| |y|) := by
  have hy := h.swap.abs_slope_le
  rw [halfTrace_swap, max_comm] at hy
  exact max_le h.abs_slope_le hy

/-- and not small either. -/
theorem det_mul_abs_le : f.det * |x| ≤
    f.halfTrace * (3 * max |gx| |gy| + 21 * unitPart * (f.halfTrace * max |x| |y|)) := by
  have ht := f.halfTrace_pos
  have hsize (g s : ℚ) (hg : |g| ≤ max |gx| |gy|)
      (herror : |g - s| ≤ 7 * unitPart * (f.halfTrace * max |x| |y|)) :
      |s| ≤ max |gx| |gy| + 7 * unitPart * (f.halfTrace * max |x| |y|) := by
    rw [abs_sub_comm] at herror
    linarith [abs_sub_abs_le_abs_sub s g]
  have hx := hsize gx _ (le_max_left _ _) h.slopeX
  have hy := hsize gy _ (le_max_right _ _) h.slopeY
  have hfirst : |2 * f.c * f.slopeX x y| ≤ 2 * f.halfTrace *
      (max |gx| |gy| + 7 * unitPart * (f.halfTrace * max |x| |y|)) := by
    rw [abs_mul, abs_of_pos (by linarith [f.c_pos])]
    exact mul_le_mul (by linarith [f.c_le]) hx (abs_nonneg _) (by linarith)
  have hsecond : |f.b * f.slopeY x y| ≤ f.halfTrace *
      (max |gx| |gy| + 7 * unitPart * (f.halfTrace * max |x| |y|)) := by
    rw [abs_mul]
    exact mul_le_mul f.abs_b_le hy (abs_nonneg _) ht.le
  rw [← abs_of_pos f.det_pos, ← abs_mul, ← f.adjugate_slope.1]
  refine (abs_sub _ _).trans ?_
  linarith

variable (hf : 512 * (unitPart * f.halfTrace ^ 2) ≤ f.det)

include hf

theorem det_mul_le : f.det * max |x| |y| ≤ 4 * (f.halfTrace * max |gx| |gy|) := by
  have hm : 0 ≤ max |x| |y| := (abs_nonneg x).trans (le_max_left _ _)
  have hx := h.det_mul_abs_le
  have hy := h.swap.det_mul_abs_le
  rw [det_swap, halfTrace_swap, max_comm |gy|, max_comm |y|] at hy
  have hunit := mul_le_mul_of_nonneg_right hf hm
  have hscale := mul_nonneg f.det_pos.le hm
  have hslope := mul_nonneg f.halfTrace_pos.le ((abs_nonneg gx).trans (le_max_left _ |gy|))
  rcases max_choice |x| |y| with hmax | hmax
  · have hsame : f.det * max |x| |y| = f.det * |x| := by rw [hmax]
    linarith
  · have hsame : f.det * max |x| |y| = f.det * |y| := by rw [hmax]
    linarith

omit h in
/-- The error of a component of the slope is small beside the value. -/
theorem sq_unit_le : (unitPart * (f.halfTrace * max |x| |y|)) ^ 2 ≤
    1 / 2 ^ (50 : ℕ) * (f.halfTrace * f.value x y) := by
  have hpoint := f.det_mul_sq_le (x := x) (y := y)
  have hsize := mul_le_mul_of_nonneg_right hf (sq_nonneg (max |x| |y|))
  have hunit : unitPart * (512 * (unitPart * f.halfTrace ^ 2) * max |x| |y| ^ 2) ≤
      unitPart * (4 * f.halfTrace * f.value x y) :=
    mul_le_mul_of_nonneg_left (hsize.trans hpoint) unitPart_pos.le
  have hvalue := mul_nonneg f.halfTrace_pos.le (f.value_nonneg x y)
  rw [unitPart_eq] at hunit ⊢
  linarith

theorem sq_slope_le : gx ^ 2 ≤ 5 * (f.halfTrace * f.value x y) := by
  have herror : (gx - f.slopeX x y) ^ 2 ≤ (7 * unitPart * (f.halfTrace * max |x| |y|)) ^ 2 :=
    sq_le_sq' (abs_le.mp h.slopeX).1 (abs_le.mp h.slopeX).2
  have hvalue := mul_nonneg f.halfTrace_pos.le (f.value_nonneg x y)
  linarith [f.sq_slopeX_le (x := x) (y := y), sq_unit_le hf (x := x) (y := y),
    sq_nonneg (8 * gx - 9 * f.slopeX x y)]

/-- The computed slope is small where the value is. -/
theorem sq_max_le : max |gx| |gy| ^ 2 ≤ 5 * (f.halfTrace * f.value x y) := by
  have hy := h.swap.sq_slope_le (by rwa [halfTrace_swap, det_swap])
  rw [halfTrace_swap, value_swap] at hy
  rcases max_choice |gx| |gy| with hmax | hmax <;> rw [hmax, sq_abs]
  · exact h.sq_slope_le hf
  · exact hy

end NearSlope

namespace NearNewton

variable (h : f.NearNewton x y gx gy d dx dy) (hf : 512 * (unitPart * f.halfTrace ^ 2) ≤ f.det)

include h hf

omit hf in
theorem swap : f.swap.NearNewton y x gy gx d dy dx where
  toNearSlope := h.toNearSlope.swap
  det := by
    rw [det_swap, halfTrace_swap]
    exact h.det
  directionX := by
    rw [halfTrace_swap, max_comm]
    exact h.directionY
  directionY := by
    rw [halfTrace_swap, max_comm]
    exact h.directionX

theorem det_ge : 501 * f.det ≤ 512 * d := by
  linarith [(abs_le.mp h.det).1]

theorem det_pos : 0 < d := by
  linarith [h.det_ge hf, f.det_pos]

/-- How far the direction misses the point, up to the determinant and as the form sees it. -/
theorem value_miss_le : f.value (d * dx - f.det * x) (d * dy - f.det * y) ≤
    (66 * (unitPart * f.halfTrace ^ 2)) ^ 2 * f.value x y := by
  have hunit : 0 < unitPart * f.halfTrace ^ 2 := mul_pos unitPart_pos (pow_pos f.halfTrace_pos 2)
  have hslope : f.value
      (2 * f.c * (gx - f.slopeX x y) - f.b * (gy - f.slopeY x y))
      (2 * f.a * (gy - f.slopeY x y) - f.b * (gx - f.slopeX x y)) ≤
        (21 * (unitPart * f.halfTrace ^ 2)) ^ 2 * f.value x y :=
    (f.value_adjugate_le h.slopeX h.slopeY).trans_eq (by ring)
  have hproduct : f.value (d * dx - (2 * f.c * gx - f.b * gy))
      (d * dy - (2 * f.a * gy - f.b * gx)) ≤
        (45 * (unitPart * f.halfTrace ^ 2)) ^ 2 * f.value x y := by
    have hsize := mul_le_mul_of_nonneg_left (h.sq_max_le hf)
      (mul_nonneg (pow_nonneg f.halfTrace_pos.le 3) (sq_nonneg unitPart))
    have hvalue := mul_nonneg (sq_nonneg (unitPart * f.halfTrace ^ 2)) (f.value_nonneg x y)
    refine (f.value_le_of_abs h.directionX h.directionY).trans ?_
    linarith
  obtain ⟨hx, hy⟩ := f.adjugate_slope (x := x) (y := y)
  have hsum := f.value_add_le (by positivity) (by positivity) hslope hproduct
  refine (le_of_eq ?_).trans (hsum.trans_eq (by ring))
  rw [← hx, ← hy]
  congr 1 <;> ring

omit hf in
/-- The same for one coordinate, in plain size. -/
theorem abs_miss_le : |d * dx - f.det * x| ≤
    77 * (unitPart * f.halfTrace ^ 2) * max |x| |y| := by
  have ht := f.halfTrace_pos
  have hfirst : |2 * f.c * (gx - f.slopeX x y)| ≤
      2 * f.halfTrace * (7 * unitPart * (f.halfTrace * max |x| |y|)) := by
    rw [abs_mul, abs_of_pos (by linarith [f.c_pos])]
    exact mul_le_mul (by linarith [f.c_le]) h.slopeX (abs_nonneg _) (by linarith)
  have hsecond : |f.b * (gy - f.slopeY x y)| ≤
      f.halfTrace * (7 * unitPart * (f.halfTrace * max |x| |y|)) := by
    rw [abs_mul]
    exact mul_le_mul f.abs_b_le h.slopeY (abs_nonneg _) ht.le
  have hproduct : 14 * unitPart * (f.halfTrace * max |gx| |gy|) ≤
      14 * unitPart * (f.halfTrace * (4 * (f.halfTrace * max |x| |y|))) :=
    mul_le_mul_of_nonneg_left (mul_le_mul_of_nonneg_left h.max_abs_le ht.le)
      (mul_nonneg (by norm_num) unitPart_pos.le)
  have hparts : d * dx - f.det * x = (2 * f.c * (gx - f.slopeX x y) -
      f.b * (gy - f.slopeY x y)) + (d * dx - (2 * f.c * gx - f.b * gy)) := by
    rw [← f.adjugate_slope.1]
    ring
  rw [hparts]
  linarith [abs_add_le (2 * f.c * (gx - f.slopeX x y) - f.b * (gy - f.slopeY x y))
    (d * dx - (2 * f.c * gx - f.b * gy)), abs_sub (2 * f.c * (gx - f.slopeX x y))
    (f.b * (gy - f.slopeY x y)), h.directionX]

/-- So the direction has the size of the point. -/
theorem abs_direction_le : |dx| ≤ 2 * max |x| |y| := by
  have hd := h.det_pos hf
  have hm : 0 ≤ max |x| |y| := (abs_nonneg x).trans (le_max_left _ _)
  have hunit := mul_le_mul_of_nonneg_right hf hm
  have hpoint : |f.det * x| ≤ f.det * max |x| |y| := by
    rw [abs_mul, abs_of_pos f.det_pos]
    exact mul_le_mul_of_nonneg_left (le_max_left _ _) f.det_pos.le
  have hsize : d * |dx| ≤ d * (2 * max |x| |y|) := by
    rw [← abs_of_pos hd, ← abs_mul, abs_of_pos hd]
    linarith [abs_sub_abs_le_abs_sub (d * dx) (f.det * x), h.abs_miss_le,
      mul_le_mul_of_nonneg_right (h.det_ge hf) hm, mul_nonneg f.det_pos.le hm]
  exact le_of_mul_le_mul_left hsize hd

variable (hη : 0 < η) (hη1 : η ≤ 1)

include hη hη1

/-- What a step leaves of the point, apart from errors. -/
theorem abs_rest_le : |1 - η * f.det / d| ≤ 1 - 15 / 16 * η := by
  have hd := h.det_pos hf
  have hlow : 15 / 16 ≤ f.det / d := by
    rw [le_div_iff₀ hd]
    linarith [(abs_le.mp h.det).2, h.det_ge hf]
  have hhigh : f.det / d ≤ 17 / 16 := by
    rw [div_le_iff₀ hd]
    linarith [h.det_ge hf]
  have hpart := mul_le_mul_of_nonneg_left hlow hη.le
  have hwhole := mul_le_mul_of_nonneg_left hhigh hη.le
  rw [mul_div_assoc, abs_le]
  constructor <;> linarith

/-- **A Newton step with errors takes nearly the part that it should.** -/
theorem value_newton_le : f.value (x - dx * η) (y - dy * η) ≤
    (1 - 3 / 4 * η) * f.value x y := by
  have hd := h.det_pos hf
  have hvalue := f.value_nonneg x y
  have hrest : f.value ((1 - η * f.det / d) * x) ((1 - η * f.det / d) * y) ≤
      (1 - 15 / 16 * η) ^ 2 * f.value x y := by
    have hsquare := sq_le_sq' (abs_le.mp (h.abs_rest_le hf hη hη1)).1
      (abs_le.mp (h.abs_rest_le hf hη hη1)).2
    rw [value_smul]
    exact mul_le_mul_of_nonneg_right hsquare hvalue
  have hmiss : f.value (-(η / d) * (d * dx - f.det * x)) (-(η / d) * (d * dy - f.det * y)) ≤
      (3 / 16 * η) ^ 2 * f.value x y := by
    have hpart : η / d * (66 * (unitPart * f.halfTrace ^ 2)) ≤ 3 / 16 * η := by
      rw [div_mul_eq_mul_div, div_le_iff₀ hd]
      have hunits : 66 * (unitPart * f.halfTrace ^ 2) ≤ 3 / 16 * d := by
        linarith [h.det_ge hf]
      linarith [mul_le_mul_of_nonneg_left hunits hη.le]
    have hunit : 0 ≤ η / d * (66 * (unitPart * f.halfTrace ^ 2)) :=
      mul_nonneg (div_nonneg hη.le hd.le)
        (mul_nonneg (by norm_num) (mul_nonneg unitPart_pos.le (sq_nonneg _)))
    rw [value_smul, neg_sq]
    calc (η / d) ^ 2 * f.value (d * dx - f.det * x) (d * dy - f.det * y)
        ≤ (η / d) ^ 2 * ((66 * (unitPart * f.halfTrace ^ 2)) ^ 2 * f.value x y) :=
          mul_le_mul_of_nonneg_left (h.value_miss_le hf) (sq_nonneg _)
      _ = (η / d * (66 * (unitPart * f.halfTrace ^ 2))) ^ 2 * f.value x y := by ring
      _ ≤ (3 / 16 * η) ^ 2 * f.value x y :=
          mul_le_mul_of_nonneg_right (pow_le_pow_left₀ hunit hpart 2) hvalue
  have hcoordinate (p e : ℚ) : p - e * η =
      (1 - η * f.det / d) * p + -(η / d) * (d * e - f.det * p) := by
    field_simp
    ring
  have hsum := f.value_add_le (by linarith) (by linarith) hrest hmiss
  rw [← hcoordinate, ← hcoordinate] at hsum
  refine hsum.trans (mul_le_mul_of_nonneg_right ?_ hvalue)
  have hsquare : (1 - 3 / 4 * η) ^ 2 ≤ 1 - 3 / 4 * η :=
    pow_le_of_le_one (by linarith) (by linarith) two_ne_zero
  exact (le_of_eq (by ring)).trans hsquare

/-- The step does not leave the square around the point. -/
theorem abs_newton_le : |x - dx * η| ≤ max |x| |y| := by
  have hd := h.det_pos hf
  have hm : 0 ≤ max |x| |y| := (abs_nonneg x).trans (le_max_left _ _)
  have hrest : |(1 - η * f.det / d) * x| ≤ (1 - 15 / 16 * η) * max |x| |y| := by
    rw [abs_mul]
    exact mul_le_mul (h.abs_rest_le hf hη hη1) (le_max_left _ _) (abs_nonneg x)
      ((abs_nonneg _).trans (h.abs_rest_le hf hη hη1))
  have hmiss : |η / d * (d * dx - f.det * x)| ≤ 1 / 2 * η * max |x| |y| := by
    have hunits : 77 * (unitPart * f.halfTrace ^ 2) ≤ 1 / 2 * d := by
      linarith [h.det_ge hf]
    rw [abs_mul, abs_of_pos (div_pos hη hd)]
    calc η / d * |d * dx - f.det * x| ≤ η / d * (1 / 2 * d * max |x| |y|) :=
          mul_le_mul_of_nonneg_left (h.abs_miss_le.trans
            (mul_le_mul_of_nonneg_right hunits hm)) (div_pos hη hd).le
      _ = 1 / 2 * η * max |x| |y| := by field_simp
  have hcoordinate : x - dx * η =
      (1 - η * f.det / d) * x - η / d * (d * dx - f.det * x) := by
    field_simp
    ring
  rw [hcoordinate]
  linarith [abs_sub ((1 - η * f.det / d) * x) (η / d * (d * dx - f.det * x)),
    mul_nonneg hη.le hm]

end NearNewton

/-! ## 4. Gradient steps of size one -/

variable (f)

theorem sq_slope_eq : f.slopeX x y ^ 2 + f.slopeY x y ^ 2 =
    4 * f.halfTrace * f.value x y - f.det * (x ^ 2 + y ^ 2) := by
  simp only [slopeX, slopeY, value, halfTrace, det]
  ring

theorem value_gradient_step : f.value (x - f.slopeX x y) (y - f.slopeY x y) =
    f.value x y - (f.slopeX x y ^ 2 + f.slopeY x y ^ 2) +
      f.value (f.slopeX x y) (f.slopeY x y) := by
  simp only [value, slopeX, slopeY]
  ring

/-- A form with a trace of at most two does not climb, -/
theorem value_gradient_step_le (hf : f.halfTrace ≤ 1) :
    f.value (x - f.slopeX x y) (y - f.slopeY x y) ≤ f.value x y := by
  have hslope := f.value_le (x := f.slopeX x y) (y := f.slopeY x y)
  have hsquares := add_nonneg (sq_nonneg (f.slopeX x y)) (sq_nonneg (f.slopeY x y))
  rw [value_gradient_step]
  linarith [mul_le_mul_of_nonneg_right hf hsquares]

/-- and the step does not lead away from the minimum. -/
theorem abs_gradient_step_le (hf : f.halfTrace ≤ 1) :
    |x - f.slopeX x y| ≤ 23 / 16 * max |x| |y| := by
  have hm : 0 ≤ max |x| |y| := (abs_nonneg x).trans (le_max_left _ _)
  have hx : x ^ 2 ≤ max |x| |y| ^ 2 := by
    rw [← sq_abs]
    exact pow_le_pow_left₀ (abs_nonneg x) (le_max_left _ _) 2
  have hy : y ^ 2 ≤ max |x| |y| ^ 2 := by
    rw [← sq_abs y]
    exact pow_le_pow_left₀ (abs_nonneg y) (le_max_right _ _) 2
  have hdistance : (x - f.slopeX x y) ^ 2 + (y - f.slopeY x y) ^ 2 =
      x ^ 2 + y ^ 2 - 4 * f.value x y + (f.slopeX x y ^ 2 + f.slopeY x y ^ 2) := by
    simp only [value, slopeX, slopeY]
    ring
  have hvalue := mul_le_mul_of_nonneg_right hf (f.value_nonneg x y)
  have hdet := mul_nonneg f.det_pos.le (add_nonneg (sq_nonneg x) (sq_nonneg y))
  rw [sq_slope_eq] at hdistance
  refine abs_le_of_sq_le_sq ?_ (by linarith)
  linarith [sq_nonneg (y - f.slopeY x y), sq_nonneg (max |x| |y|)]

/-- **A gradient step of size one takes the part `D / (2 t)` from the value**, if `t` is at most a
half. -/
theorem det_mul_value_le (hf : f.halfTrace ≤ 1 / 2) : f.det * f.value x y ≤
    2 * f.halfTrace * (f.value x y - f.value (x - f.slopeX x y) (y - f.slopeY x y)) := by
  have hslope := f.value_nonneg (f.slopeX x y) (f.slopeY x y)
  have hsum := f.value_add_adjugate (x := f.slopeX x y) (y := f.slopeY x y)
  have hadjugate : f.adjugate.value (f.slopeX x y) (f.slopeY x y) = f.det * f.value x y := by
    simp only [adjugate, value, slopeX, slopeY, det]
    ring
  have hnonneg := f.adjugate.value_nonneg (f.slopeX x y) (f.slopeY x y)
  have htrace := mul_le_mul_of_nonneg_right hf hslope
  rw [value_gradient_step]
  linarith

end ExactForm

end Downhill

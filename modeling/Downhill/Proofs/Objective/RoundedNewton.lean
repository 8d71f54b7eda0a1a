import Downhill.Proofs.Objective.Curvature
import Downhill.Proofs.Objective.ExactForm
import Downhill.StepRule

/-! # Damped Newton in rounded arithmetic

Rounding makes a step miss the point it aims at, and a value the number it stands for.  With `t` for
half of the trace of the Hessian and `D` for its determinant, both exact, and `m` for the larger
coordinate of the point, values have the scale `t m²`.  Two things are said of a step from a point
where that scale is in range, and of a step from the origin.

* It does not climb by more than the part `2 ^ -45` of the scale.  A Newton step may be damped as
  one likes, but the determinant must have some correct digits, which is so for `t² ≤ 2⁴⁴ D`.  A
  step that falls back needs nothing but `t ≤ 1`, which keeps its size below the stability limit.
* It does not climb at all if it is meant to descend by more than that: `t² ≤ 2⁴⁴ η D` for a Newton
  step with damping `η`, and `t³ ≤ 2⁴⁴ D²` for one that falls back.

The errors are counted operation by operation, in units of the scale of each formula.
-/

namespace Downhill.QuadraticForm

open Binary64

/-! ## 1. Scales -/

section Scales

variable (q : QuadraticForm Float)

/-- Half of the trace of the Hessian, exactly. -/
def halfTrace : ℚ := toRat q.a + toRat q.c

/-- The determinant of the Hessian, exactly. -/
def exactDet : ℚ := 4 * toRat q.a * toRat q.c - toRat q.b ^ 2

/-- The larger coordinate of a point. -/
def extent (p : Point Float) : ℚ := max |toRat p.x| |toRat p.y|

/-- The scale of the value at a point. -/
def valueScale (p : Point Float) : ℚ := q.halfTrace * extent p ^ 2

/-- The larger component of the computed gradient. -/
def slopeSize (p : Point Float) : ℚ :=
  max |toRat (q.objective.gradient p).x| |toRat (q.objective.gradient p).y|

/-- The origin, or a finite point where the scale of the value is in range. -/
def InRange (p : Point Float) : Prop :=
  p.isFinite = true ∧ (extent p = 0 ∨ Between (-1018) 1010 (q.valueScale p))

/-- The value at `p'` is finite and exceeds the value at `p` by at most `r`. -/
def RisesAtMost (r : ℚ) (p p' : Point Float) : Prop :=
  (q.objective.evaluate p').isFinite = true ∧
    toRat (q.objective.evaluate p') ≤ toRat (q.objective.evaluate p) + r

variable {q}

theorem toRat_a_le : toRat q.a ≤ q.halfTrace := le_add_of_nonneg_right q.toRat_c_nonneg

theorem toRat_c_le : toRat q.c ≤ q.halfTrace := le_add_of_nonneg_left q.toRat_a_pos.le

/-- **Accepted forms of a moderate scale are positive definite**: nothing in the test overflows,
except the square, and then the test is not passed. -/
theorem exactDet_pos (ht : q.halfTrace ≤ 2 ^ (500 : ℤ)) : 0 < q.exactDet := by
  have ha := (toRat_a_le (q := q)).trans ht
  have hc := (toRat_c_le (q := q)).trans ht
  have hproduct := mul_le_mul ha hc q.toRat_c_nonneg (by positivity)
  have hfour : (4.0 * q.a).isFinite = true := by
    refine ((roundsTo_mul rfl q.finite_a).bounded_two_pow (k := 500 + 0 + 2) (by norm_num)
      (by norm_num) ?_).1
    rw [toRat_four, abs_of_pos (by linarith [q.toRat_a_pos]), ← four_mul_two_pow, zpow_zero]
    linarith
  have hfinite : (4.0 * q.a * q.c).isFinite = true := by
    refine ((roundsTo_mul hfour q.finite_c).bounded_two_pow (k := 500 + 500 + 2) (by norm_num)
      (by norm_num) ?_).1
    rw [toRat_four_mul q.finite_a hfour, ← four_mul_two_pow, mul_assoc, mul_assoc, abs_of_nonneg
      (mul_nonneg zero_le_four (mul_nonneg q.toRat_a_pos.le q.toRat_c_nonneg))]
    exact mul_le_mul_of_nonneg_left hproduct zero_le_four
  have hsquare : (q.b * q.b).isNaN = false := (roundsTo_mul q.finite_b q.finite_b).isNaN
  exact discriminant_pos q.accepted.1 hfour (sub_defined hfinite hsquare) q.accepted.2.2

/-- The form over the rationals. -/
def exact (ht : q.halfTrace ≤ 2 ^ (500 : ℤ)) : ExactForm where
  a := toRat q.a
  b := toRat q.b
  c := toRat q.c
  a_pos := q.toRat_a_pos
  definite := exactDet_pos ht

@[simp] theorem exact_a (ht : q.halfTrace ≤ 2 ^ (500 : ℤ)) : (exact ht).a = toRat q.a := rfl

@[simp] theorem exact_b (ht : q.halfTrace ≤ 2 ^ (500 : ℤ)) : (exact ht).b = toRat q.b := rfl

@[simp] theorem exact_c (ht : q.halfTrace ≤ 2 ^ (500 : ℤ)) : (exact ht).c = toRat q.c := rfl

@[simp] theorem halfTrace_exact (ht : q.halfTrace ≤ 2 ^ (500 : ℤ)) :
    (exact ht).halfTrace = q.halfTrace := rfl

@[simp] theorem det_exact (ht : q.halfTrace ≤ 2 ^ (500 : ℤ)) : (exact ht).det = q.exactDet := rfl

theorem extent_nonneg (p : Point Float) : 0 ≤ extent p := (abs_nonneg _).trans (le_max_left _ _)

theorem between_halfTrace (ht : q.halfTrace ≤ 2 ^ (500 : ℤ)) : Between (-539) 500 q.halfTrace :=
  ⟨q.two_pow_le_half_trace, ht⟩

variable {p : Point Float} (ht : q.halfTrace ≤ 2 ^ (500 : ℤ))
  (hs : Between (-1018) 1010 (q.valueScale p))

include ht hs

theorem between_extent : Between (-759) 775 (extent p) := by
  have hsquare : extent p ^ 2 = q.valueScale p / q.halfTrace := by
    rw [valueScale, mul_div_cancel_left₀ _ (between_halfTrace ht).pos.ne']
  refine .of_sq (extent_nonneg p) ?_
  rw [hsquare]
  exact (hs.div (between_halfTrace ht)).mono (by norm_num) (by norm_num)

theorem between_slope : Between (-779) 755 (q.halfTrace * extent p) := by
  have hsquare : (q.halfTrace * extent p) ^ 2 = q.halfTrace * q.valueScale p := by
    rw [valueScale]
    ring
  refine .of_sq (mul_nonneg (between_halfTrace ht).pos.le (extent_nonneg p)) ?_
  rw [hsquare]
  exact ((between_halfTrace ht).mul hs).mono (by norm_num) (by norm_num)

theorem isScale_extent : IsScale (extent p) :=
  (between_extent ht hs).mono (by norm_num) (by norm_num)

theorem isScale_slope : IsScale (q.halfTrace * extent p) :=
  (between_slope ht hs).mono (by norm_num) (by norm_num)

omit ht in
theorem isScale_value : IsScale (q.halfTrace * extent p * extent p) := by
  rw [mul_assoc, ← sq]
  exact hs.mono (by norm_num) (by norm_num)

end Scales

/-! ## 2. Coefficients and slopes -/

section Near

variable {q : QuadraticForm Float} {s : ℚ}

/-- All coefficients are at most half of the trace. -/
theorem near_coefficients (ht : q.halfTrace ≤ 2 ^ (500 : ℤ)) (hs : IsScale s)
    (hle : q.halfTrace ≤ s) :
    Near s 1 0 q.a (toRat q.a) ∧ Near s 1 0 q.b (toRat q.b) ∧ Near s 1 0 q.c (toRat q.c) := by
  have hsize (x : ℚ) (hx : |x| ≤ q.halfTrace) : |x| ≤ 1 * s := by linarith
  refine ⟨.of_finite hs q.finite_a (hsize _ ?_) (by norm_num),
    .of_finite hs q.finite_b (hsize _ (exact ht).abs_b_le) (by norm_num),
    .of_finite hs q.finite_c (hsize _ ?_) (by norm_num)⟩
  · rw [abs_of_pos q.toRat_a_pos]
    exact toRat_a_le
  · rw [abs_of_nonneg q.toRat_c_nonneg]
    exact toRat_c_le

/-- So are the entries of the Hessian, up to a factor of two. -/
theorem near_entries (ht : q.halfTrace ≤ 2 ^ (500 : ℤ)) (hs : IsScale s) (hle : q.halfTrace ≤ s) :
    Near s 2 0 (2.0 * q.a) (2 * toRat q.a) ∧ Near s 2 0 (-q.b) (-toRat q.b) ∧
      Near s 2 0 (2.0 * q.c) (2 * toRat q.c) := by
  obtain ⟨ha, hb, hc⟩ := near_coefficients ht hs hle
  refine ⟨ha.double (by norm_num) (by norm_num) (by norm_num),
    hb.neg.resize ?_ (by norm_num), hc.double (by norm_num) (by norm_num) (by norm_num)⟩
  exact hb.neg.size.trans (mul_le_mul_of_nonneg_right one_le_two hs.pos.le)

theorem isScale_halfTrace (ht : q.halfTrace ≤ 2 ^ (500 : ℤ)) : IsScale q.halfTrace :=
  (between_halfTrace ht).mono (by norm_num) (by norm_num)

variable {p : Point Float} (ht : q.halfTrace ≤ 2 ^ (500 : ℤ)) (hp : p.isFinite = true)
  (hs : Between (-1018) 1010 (q.valueScale p))

include ht hp hs

theorem near_point : Near (extent p) 1 0 p.x (toRat p.x) ∧ Near (extent p) 1 0 p.y (toRat p.y) :=
  ⟨.of_finite (isScale_extent ht hs) (point_isFinite_iff.mp hp).1
      (by rw [one_mul]; exact le_max_left _ _) (by norm_num),
    .of_finite (isScale_extent ht hs) (point_isFinite_iff.mp hp).2
      (by rw [one_mul]; exact le_max_right _ _) (by norm_num)⟩

/-- The computed gradient is near to the exact one. -/
theorem near_gradient :
    Near (q.halfTrace * extent p) 3 7 (q.objective.gradient p).x
      ((exact ht).slopeX (toRat p.x) (toRat p.y)) ∧
    Near (q.halfTrace * extent p) 3 7 (q.objective.gradient p).y
      ((exact ht).slopeY (toRat p.x) (toRat p.y)) := by
  have hscale := isScale_slope ht hs
  obtain ⟨-, hb, -⟩ := near_coefficients ht (isScale_halfTrace ht) le_rfl
  obtain ⟨ha, -, hc⟩ := near_entries ht (isScale_halfTrace ht) le_rfl
  obtain ⟨hx, hy⟩ := near_point ht hp hs
  constructor
  · have hfirst : Near (q.halfTrace * extent p) 2 (5 / 2) (2.0 * q.a * p.x)
        (2 * toRat q.a * toRat p.x) :=
      ha.mul hx hscale (by norm_num) (by norm_num) (by norm_num)
    have hsecond : Near (q.halfTrace * extent p) 1 (5 / 4) (q.b * p.y) (toRat q.b * toRat p.y) :=
      hb.mul hy hscale (by norm_num) (by norm_num) (by norm_num)
    exact hfirst.add hsecond (by norm_num) (by norm_num) (by norm_num)
  · have hfirst : Near (q.halfTrace * extent p) 1 (5 / 4) (q.b * p.x) (toRat q.b * toRat p.x) :=
      hb.mul hx hscale (by norm_num) (by norm_num) (by norm_num)
    have hsecond : Near (q.halfTrace * extent p) 2 (5 / 2) (2.0 * q.c * p.y)
        (2 * toRat q.c * toRat p.y) :=
      hc.mul hy hscale (by norm_num) (by norm_num) (by norm_num)
    exact hfirst.add hsecond (by norm_num) (by norm_num) (by norm_num)

theorem nearSlope : (exact ht).NearSlope (toRat p.x) (toRat p.y)
    (toRat (q.objective.gradient p).x) (toRat (q.objective.gradient p).y) where
  slopeX := (near_gradient ht hp hs).1.error.trans_eq (mul_assoc _ _ _).symm
  slopeY := (near_gradient ht hp hs).2.error.trans_eq (mul_assoc _ _ _).symm

end Near

/-! ## 3. Values -/

/-- Units of error of one term of a value, at coordinates of the relative size `k`. -/
def termUnits (k : ℚ) : ℚ := (17 / 16 * (k + 1 / 16) + 1 / 16) * k + (k + 1 / 16) ^ 2 + 1 / 16

/-- Units of error of the value itself. -/
def valueUnits (k : ℚ) : ℚ := 3 * termUnits k + 5 * k ^ 2 + 3 / 8

section Values

variable {q : QuadraticForm Float} {p : Point Float} (ht : q.halfTrace ≤ 2 ^ (500 : ℤ))
  (hs : Between (-1018) 1010 (q.valueScale p)) {k : ℚ} {x y : Float}

theorem termUnits_le (hk : 0 ≤ k) (hk1 : k ≤ 3 / 2) : k ^ 2 ≤ 9 / 4 ∧ termUnits k ≤ 51 / 10 := by
  have hsquare : k ^ 2 ≤ (3 / 2) ^ 2 := pow_le_pow_left₀ hk hk1 2
  refine ⟨by linarith, ?_⟩
  rw [termUnits]
  linarith

include ht hs

/-- The computed value is near to the exact one. -/
theorem near_evaluate (hx : Near (extent p) k 0 x (toRat x)) (hy : Near (extent p) k 0 y (toRat y))
    (hk : k ≤ 3 / 2) : Near (q.halfTrace * extent p * extent p) (3 * k ^ 2) (valueUnits k)
      (q.objective.evaluate ⟨x, y⟩) ((exact ht).value (toRat x) (toRat y)) := by
  obtain ⟨ha, hb, hc⟩ := near_coefficients ht (isScale_halfTrace ht) le_rfl
  obtain ⟨hsquare, hunits⟩ := termUnits_le hx.size_nonneg hk
  have hterm {a z w : Float} (ha : Near q.halfTrace 1 0 a (toRat a))
      (hz : Near (extent p) k 0 z (toRat z)) (hw : Near (extent p) k 0 w (toRat w)) :
      Near (q.halfTrace * extent p * extent p) (k ^ 2) (termUnits k) (a * z * w)
        (toRat a * toRat z * toRat w) := by
    have hfirst : Near (q.halfTrace * extent p) k (17 / 16 * (k + 1 / 16) + 1 / 16) (a * z)
        (toRat a * toRat z) :=
      ha.mul hz (isScale_slope ht hs) (by linarith) (by linarith) ⟨by linarith, by linarith⟩
    refine hfirst.mul hw (isScale_value hs) (by linarith) ?_ ⟨by linarith, by linarith⟩
    rw [termUnits]
    linarith
  have hsum : Near (q.halfTrace * extent p * extent p) (2 * k ^ 2)
      (2 * termUnits k + 2 * k ^ 2 + 3 / 16) (q.a * x * x + q.b * x * y)
      (toRat q.a * toRat x * toRat x + toRat q.b * toRat x * toRat y) :=
    (hterm ha hx hx).add (hterm hb hx hy) (by linarith) (by linarith)
      ⟨by linarith, by linarith⟩
  refine hsum.add (hterm hc hy hy) (by linarith) ?_ ⟨by linarith, ?_⟩ <;> rw [valueUnits] <;>
    linarith

variable (hp : p.isFinite = true) {n r v w : ℚ}

include hp

/-- The value at the point itself. -/
theorem near_evaluate_self : Near (q.halfTrace * extent p * extent p) 3 13
    (q.objective.evaluate p) ((exact ht).value (toRat p.x) (toRat p.y)) := by
  obtain ⟨hx, hy⟩ := near_point ht hp hs
  have h := near_evaluate ht hs hx hy (by norm_num)
  exact ⟨h.scale, by norm_num, h.finite, h.size.trans_eq (by ring), h.error.trans
    (mul_le_mul_of_nonneg_right (by norm_num [valueUnits, termUnits]) h.unit_pos.le)⟩

omit hp in
/-- The value at a point that is reached with small errors. -/
theorem evaluate_reached_le (hx : Near (extent p) r n x v) (hy : Near (extent p) r n y w)
    (hr : r ≤ 23 / 16) (hn : n ≤ 16) :
    (q.objective.evaluate ⟨x, y⟩).isFinite = true ∧
      toRat (q.objective.evaluate ⟨x, y⟩) ≤
        (exact ht).value v w + (4 * r * n + 28) * (unitPart * q.valueScale p) := by
  have hm := hx.scale.pos
  have ht0 := (between_halfTrace ht).pos
  have hexact {z : Float} {u : ℚ} (hz : Near (extent p) r n z u) :
      Near (extent p) (3 / 2) 0 z (toRat z) :=
    .of_finite hz.scale hz.finite (hz.abs_toRat_le.trans
      (mul_le_mul_of_nonneg_right (by linarith) hm.le)) (by norm_num)
  have hcomputed := near_evaluate ht hs (hexact hx) (hexact hy) le_rfl
  have hmoved := (exact ht).value_add_le_of_small hx.size hy.size hx.error hy.error
  have hunits : valueUnits (3 / 2) ≤ 27 := by norm_num [valueUnits, termUnits]
  have hscale : q.halfTrace * extent p * extent p = q.valueScale p := by rw [valueScale]; ring
  have hsquares : 2 * (n * (unitPart * extent p)) ^ 2 ≤ unitPart * extent p ^ 2 := by
    have hn2 : n ^ 2 ≤ 16 ^ 2 := pow_le_pow_left₀ hx.error_nonneg hn 2
    have hpart := mul_le_mul_of_nonneg_right hn2 (sq_nonneg (extent p))
    rw [unitPart_eq]
    linarith [sq_nonneg (extent p)]
  have herror := hcomputed.error
  rw [add_sub_cancel, add_sub_cancel, halfTrace_exact] at hmoved
  rw [hscale] at herror
  refine ⟨hcomputed.finite, ?_⟩
  have hunit := mul_le_mul_of_nonneg_right hunits (mul_pos unitPart_pos hs.pos).le
  have htotal : q.halfTrace * (4 * (r * extent p) * (n * (unitPart * extent p)) +
      2 * (n * (unitPart * extent p)) ^ 2) ≤ (4 * r * n + 1) * (unitPart * q.valueScale p) := by
    rw [valueScale]
    linarith [mul_le_mul_of_nonneg_left hsquares ht0.le]
  linarith [(abs_le.mp herror).2]

/-- A step that does not climb exactly rises by the errors at most. -/
theorem risesAtMost_of_near (hx : Near (extent p) r n x v) (hy : Near (extent p) r n y w)
    (hr : r ≤ 23 / 16) (hn : n ≤ 16) (htotal : 4 * r * n + 41 ≤ 256)
    (hvalue : (exact ht).value v w ≤ (exact ht).value (toRat p.x) (toRat p.y)) :
    q.RisesAtMost (2 ^ (-45 : ℤ) * q.valueScale p) p ⟨x, y⟩ := by
  obtain ⟨hfinite, hle⟩ := evaluate_reached_le ht hs hx hy hr hn
  have hself := (near_evaluate_self ht hs hp).error
  rw [mul_assoc q.halfTrace, ← sq, ← valueScale] at hself
  have hunit := mul_le_mul_of_nonneg_right htotal (mul_pos unitPart_pos hs.pos).le
  have hpart : (2 : ℚ) ^ (-45 : ℤ) = 256 * unitPart := by norm_num [unitPart]
  refine ⟨hfinite, ?_⟩
  rw [hpart]
  linarith [(abs_le.mp hself).1]

/-- A step that descends exactly by more than the errors descends. -/
theorem evaluate_le_of_near (hx : Near (extent p) r n x v) (hy : Near (extent p) r n y w)
    (hr : r ≤ 23 / 16) (hn : n ≤ 16)
    (hvalue : (exact ht).value v w + (4 * r * n + 41) * (unitPart * q.valueScale p) ≤
      (exact ht).value (toRat p.x) (toRat p.y)) :
    q.objective.evaluate ⟨x, y⟩ ≤ q.objective.evaluate p := by
  obtain ⟨hfinite, hle⟩ := evaluate_reached_le ht hs hx hy hr hn
  have hself := near_evaluate_self ht hs hp
  have herror := hself.error
  rw [mul_assoc q.halfTrace, ← sq, ← valueScale] at herror
  rw [le_iff_toRat hfinite hself.finite]
  linarith [(abs_le.mp herror).1]

omit hs hp in
/-- What a unit of the scale is beside the value. -/
theorem det_mul_scale_le : q.exactDet * q.valueScale p ≤
    4 * q.halfTrace ^ 2 * (exact ht).value (toRat p.x) (toRat p.y) := by
  have h := mul_le_mul_of_nonneg_left ((exact ht).det_mul_sq_le (x := toRat p.x) (y := toRat p.y))
    (between_halfTrace ht).pos.le
  calc q.exactDet * q.valueScale p = q.halfTrace * (q.exactDet * extent p ^ 2) := by
        rw [valueScale]
        ring
    _ ≤ q.halfTrace * (4 * q.halfTrace * (exact ht).value (toRat p.x) (toRat p.y)) := h
    _ = 4 * q.halfTrace ^ 2 * (exact ht).value (toRat p.x) (toRat p.y) := by ring

end Values

/-! ## 4. Newton steps -/

section Newton

variable {q : QuadraticForm Float} {p : Point Float} {inverse : Mat Float}
  (ht : q.halfTrace ≤ 2 ^ (500 : ℤ))

include ht

/-- The computed determinant, in a scale that the trace does not exceed. -/
theorem near_det {s : ℚ} (hs : IsScale s) (hss : IsScale (s * s)) (hle : q.halfTrace ≤ s) :
    Near (s * s) 5 11 q.objective.hessian.det (exact ht).det := by
  obtain ⟨-, hb, -⟩ := near_coefficients ht hs hle
  obtain ⟨ha, -, hc⟩ := near_entries ht hs hle
  have hdiagonal : Near (s * s) 4 (9 / 2) (2.0 * q.a * (2.0 * q.c))
      (2 * toRat q.a * (2 * toRat q.c)) :=
    ha.mul hc hss (by norm_num) (by norm_num) (by norm_num)
  have hoff : Near (s * s) 1 (5 / 4) (q.b * q.b) (toRat q.b * toRat q.b) :=
    hb.mul hb hss (by norm_num) (by norm_num) (by norm_num)
  have hdet : (exact ht).det = 2 * toRat q.a * (2 * toRat q.c) - toRat q.b * toRat q.b := by
    simp only [ExactForm.det, exact]
    ring
  rw [hdet]
  exact hdiagonal.sub hoff (by norm_num) (by norm_num) (by norm_num)

omit ht in
/-- The inverse that a Newton step uses is made of the coefficients and the determinant, which is
finite and not small. -/
theorem newtonInverse?_eq_some (h : StepRule.newtonInverse? q.objective = some inverse) :
    let det := q.objective.hessian.det
    (det.isFinite = true ∧ ¬det.abs < 1e-10) ∧
      inverse = ⟨2.0 * q.c / det, -q.b / det, -q.b / det, 2.0 * q.a / det⟩ := by
  simp only [StepRule.newtonInverse?, Mat.inverse?] at h
  split at h
  · cases h
  · rename_i hregular
    simp only [Bool.or_eq_true, Bool.not_eq_true', decide_eq_true_eq, not_or,
      Bool.not_eq_false] at hregular
    exact ⟨hregular, (Option.some.inj h).symm⟩

/-- A form with a Newton step has a trace that is not small. -/
theorem two_pow_le_of_regular (h : StepRule.newtonInverse? q.objective = some inverse) :
    (2 : ℚ) ^ (-20 : ℤ) ≤ q.halfTrace := by
  by_contra! hsmall
  have hs : IsScale (2 ^ (-20 : ℤ)) := isScale_two_pow (by norm_num) (by norm_num)
  have hss : IsScale (2 ^ (-20 : ℤ) * 2 ^ (-20 : ℤ)) := by
    rw [← zpow_add₀ two_ne_zero]
    exact isScale_two_pow (by norm_num) (by norm_num)
  have hdet := (near_det ht hs hss hsmall.le).abs_toRat_le
  obtain ⟨⟨hfinite, hlarge⟩, -⟩ := newtonInverse?_eq_some h
  have htolerance : toRat 1e-10 = (7737125245533627 : ℕ) * 2 ^ (-86 : ℤ) := rfl
  rw [lt_iff_toRat (isFinite_abs hfinite) rfl, toRat_abs, htolerance] at hlarge
  norm_num at hdet hlarge
  linarith

variable (hp : p.isFinite = true) (hs : Between (-1018) 1010 (q.valueScale p))
  (hf : 512 * (unitPart * q.halfTrace ^ 2) ≤ q.exactDet)
  (h : StepRule.newtonInverse? q.objective = some inverse)

include h

theorem between_halfTrace_of_regular : Between (-20) 500 q.halfTrace :=
  ⟨two_pow_le_of_regular ht h, ht⟩

theorem near_det_of_regular :
    Near (q.halfTrace * q.halfTrace) 5 11 q.objective.hessian.det (exact ht).det :=
  have hscale := between_halfTrace_of_regular ht h
  near_det ht (isScale_halfTrace ht) ((hscale.mul hscale).mono (by norm_num) (by norm_num)) le_rfl

include hf

/-- The computed determinant has some correct digits. -/
theorem det_bounds : 501 * (unitPart * q.halfTrace ^ 2) ≤ toRat q.objective.hessian.det ∧
    toRat q.objective.hessian.det ≤ 2 * q.halfTrace ^ 2 ∧
    toRat q.objective.hessian.det ≤ 2 * q.exactDet := by
  have herror := abs_le.mp (near_det_of_regular ht h).error
  have hexact := (exact ht).det_le
  have hsquare := sq_nonneg q.halfTrace
  have hpos := (exact ht).det_pos
  rw [← sq] at herror
  rw [det_exact] at herror hexact hpos
  rw [halfTrace_exact] at hexact
  refine ⟨by linarith [herror.1], ?_, by linarith [herror.2]⟩
  linarith [herror.2]

theorem toRat_det_pos : 0 < toRat q.objective.hessian.det :=
  (mul_pos (by norm_num) (mul_pos unitPart_pos (pow_pos (between_halfTrace ht).pos 2))).trans_le
    (det_bounds ht hf h).1

/-- The scale of the entries of the inverse. -/
theorem isScale_entry : IsScale (q.halfTrace / toRat q.objective.hessian.det) := by
  have hscale := between_halfTrace_of_regular ht h
  obtain ⟨hlow, hhigh, -⟩ := det_bounds ht hf h
  have hd := toRat_det_pos ht hf h
  have hinverse : Between (0 - 500) (0 - -20) (1 / q.halfTrace) :=
    Between.div ⟨le_rfl, le_rfl⟩ hscale
  refine (hinverse.of_le (k := -1) (l := 45) ?_ ?_).mono (by norm_num) (by norm_num)
  · rw [mul_one_div, div_le_div_iff₀ hscale.pos hd]
    norm_num
    linarith
  · rw [mul_one_div, div_le_div_iff₀ hd hscale.pos]
    rw [unitPart_eq] at hlow
    norm_num
    linarith

/-- An entry of the inverse, measured against the determinant as it was computed. -/
theorem near_quotient {x : Float} {c : ℚ} (hx : Near q.halfTrace 2 0 x c) :
    Near (q.halfTrace / toRat q.objective.hessian.det) 2 (17 / 8) (x / q.objective.hessian.det)
      (c / toRat q.objective.hessian.det) :=
  hx.div (near_det_of_regular ht h).finite (toRat_det_pos ht hf h) (isScale_entry ht hf h) le_rfl
    (by norm_num) (by norm_num)

theorem isFinite_inverse : inverse.IsFinite := by
  obtain ⟨ha, hb, hc⟩ := near_entries ht (isScale_halfTrace ht) le_rfl
  have hquotient {x : Float} {c : ℚ} (hx : Near q.halfTrace 2 0 x c) :=
    (near_quotient ht hf h hx).finite
  rw [(newtonInverse?_eq_some h).2]
  exact ⟨⟨hquotient hc, hquotient hb⟩, hquotient hb, hquotient ha⟩

include hp hs

omit h in
theorem isScale_slopeSize : IsScale (q.slopeSize p) := by
  have hslope := nearSlope ht hp hs
  have hlarge : q.exactDet * extent p ≤ 4 * (q.halfTrace * q.slopeSize p) := hslope.det_mul_le hf
  have hdet := mul_le_mul_of_nonneg_right hf (extent_nonneg p)
  refine ((between_slope ht hs).of_le (k := -46) (l := 2) ?_ ?_).mono (by norm_num) (by norm_num)
  · refine le_of_mul_le_mul_left ?_ (between_halfTrace ht).pos
    rw [unitPart_eq] at hdet
    norm_num
    linarith
  · have hsmall : q.slopeSize p ≤ 4 * (q.halfTrace * extent p) := hslope.max_abs_le
    norm_num
    exact hsmall

/-- The scale of the direction. -/
theorem isScale_direction :
    IsScale (q.halfTrace / toRat q.objective.hessian.det * q.slopeSize p) := by
  have hslope := nearSlope ht hp hs
  have hd := toRat_det_pos ht hf h
  obtain ⟨hlow, -, hhigh⟩ := det_bounds ht hf h
  have hlarge : q.exactDet * extent p ≤ 4 * (q.halfTrace * q.slopeSize p) := hslope.det_mul_le hf
  have hsmall : q.slopeSize p ≤ 4 * (q.halfTrace * extent p) := hslope.max_abs_le
  have hm := extent_nonneg p
  refine ((between_extent ht hs).of_le (k := -3) (l := 47) ?_ ?_).mono (by norm_num) (by norm_num)
  · rw [div_mul_eq_mul_div, le_div_iff₀ hd]
    norm_num
    linarith [mul_le_mul_of_nonneg_right hhigh hm]
  · have hunits := mul_le_mul_of_nonneg_right hlow hm
    have htimes := mul_le_mul_of_nonneg_left hsmall (between_halfTrace ht).pos.le
    rw [div_mul_eq_mul_div, div_le_iff₀ hd]
    rw [unitPart_eq] at hunits
    norm_num
    linarith [mul_nonneg (sq_nonneg q.halfTrace) hm]

/-- A component of the product of inverse and gradient, measured against both as they were
computed. -/
theorem near_component {k l u v : Float} {a b : ℚ} (hk : Near q.halfTrace 2 0 k a)
    (hl : Near q.halfTrace 2 0 l b) (hu : Near (q.slopeSize p) 1 0 u (toRat u))
    (hv : Near (q.slopeSize p) 1 0 v (toRat v)) :
    let det := q.objective.hessian.det
    (k / det * u + l / det * v).isFinite = true ∧
      |toRat det * toRat (k / det * u + l / det * v) - (a * toRat u + b * toRat v)| ≤
        14 * unitPart * (q.halfTrace * q.slopeSize p) := by
  intro det
  have hd : 0 < toRat det := toRat_det_pos ht hf h
  have hne := hd.ne'
  have hscale := isScale_direction ht hp hs hf h
  have hproduct {x y : Float} {c : ℚ} (hx : Near q.halfTrace 2 0 x c)
      (hy : Near (q.slopeSize p) 1 0 y (toRat y)) :
      Near (q.halfTrace / toRat det * q.slopeSize p) 2 (9 / 2) (x / det * y)
        (c / toRat det * toRat y) :=
    (near_quotient ht hf h hx).mul hy hscale (by norm_num) (by norm_num) (by norm_num)
  have hsum : Near (q.halfTrace / toRat det * q.slopeSize p) 4 14 (k / det * u + l / det * v)
      (a / toRat det * toRat u + b / toRat det * toRat v) :=
    (hproduct hk hu).add (hproduct hl hv) (by norm_num) (by norm_num) (by norm_num)
  have hparts : toRat det * toRat (k / det * u + l / det * v) - (a * toRat u + b * toRat v) =
      toRat det * (toRat (k / det * u + l / det * v) -
        (a / toRat det * toRat u + b / toRat det * toRat v)) := by
    field_simp
  refine ⟨hsum.finite, ?_⟩
  rw [hparts, abs_mul, abs_of_pos hd]
  refine (mul_le_mul_of_nonneg_left hsum.error hd.le).trans_eq ?_
  field_simp

/-- **What a Newton step computes is near to what it should.** -/
theorem nearNewton :
    let g := q.objective.gradient p
    let d := inverse.mulVec g
    (d.x.isFinite = true ∧ d.y.isFinite = true) ∧
      (exact ht).NearNewton (toRat p.x) (toRat p.y) (toRat g.x) (toRat g.y)
        (toRat q.objective.hessian.det) (toRat d.x) (toRat d.y) := by
  intro g d
  obtain ⟨-, hinverse⟩ := newtonInverse?_eq_some h
  obtain ⟨hda, hnb, hdc⟩ := near_entries ht (isScale_halfTrace ht) le_rfl
  have hscale := isScale_slopeSize ht hp hs hf
  obtain ⟨hgx, hgy⟩ := near_gradient ht hp hs
  have hx : Near (q.slopeSize p) 1 0 g.x (toRat g.x) :=
    .of_finite hscale hgx.finite (by rw [one_mul]; exact le_max_left _ _) (by norm_num)
  have hy : Near (q.slopeSize p) 1 0 g.y (toRat g.y) :=
    .of_finite hscale hgy.finite (by rw [one_mul]; exact le_max_right _ _) (by norm_num)
  have hdx := near_component ht hp hs hf h hdc hnb hx hy
  have hdy := near_component ht hp hs hf h hnb hda hx hy
  have hdet := (near_det_of_regular ht h).error
  have hd : d = ⟨2.0 * q.c / q.objective.hessian.det * g.x + -q.b / q.objective.hessian.det * g.y,
      -q.b / q.objective.hessian.det * g.x + 2.0 * q.a / q.objective.hessian.det * g.y⟩ := by
    simp only [d, hinverse, Mat.mulVec]
  rw [hd]
  refine ⟨⟨hdx.1, hdy.1⟩, nearSlope ht hp hs, ?_, ?_, ?_⟩
  · rw [← sq, ← mul_assoc] at hdet
    exact hdet
  · have hterms : 2 * (exact ht).c * toRat g.x - (exact ht).b * toRat g.y =
        2 * toRat q.c * toRat g.x + -toRat q.b * toRat g.y := by
      rw [exact_b, exact_c, neg_mul, sub_eq_add_neg]
    rw [hterms]
    exact hdx.2
  · have hterms : 2 * (exact ht).a * toRat g.y - (exact ht).b * toRat g.x =
        -toRat q.b * toRat g.x + 2 * toRat q.a * toRat g.y := by
      rw [exact_a, exact_b, neg_mul, sub_eq_neg_add]
    rw [hterms]
    exact hdy.2

variable {η : Float} (hη : η.isFinite = true) (hη0 : 0 < toRat η) (hη1 : toRat η ≤ 1)

include hη hη0 hη1

/-- A Newton step reaches a point near to the one that its direction aims at. -/
theorem near_newton_point :
    let g := q.objective.gradient p
    let d := inverse.mulVec g
    Near (extent p) 1 6 (p.x + -d.x * η) (toRat p.x - toRat d.x * toRat η) ∧
      Near (extent p) 1 6 (p.y + -d.y * η) (toRat p.y - toRat d.y * toRat η) := by
  intro g d
  obtain ⟨hx, hy⟩ := near_point ht hp hs
  obtain ⟨⟨hdx, hdy⟩, hnear⟩ := nearNewton ht hp hs hf h
  have hdamping : Near 1 1 0 η (toRat η) :=
    .of_finite isScale_one hη (by rwa [mul_one, abs_of_pos hη0]) (by norm_num)
  have hcoordinate {x e : Float} (hx : Near (extent p) 1 0 x (toRat x)) (he : e.isFinite = true)
      (hsize : |toRat e| ≤ 2 * extent p) (hreached : |toRat x - toRat e * toRat η| ≤ extent p) :
      Near (extent p) 1 6 (x + -e * η) (toRat x - toRat e * toRat η) := by
    have hmove : Near (extent p) 2 (7 / 3) (-e * η) (-toRat e * toRat η) := by
      have hproduct : Near (extent p * 1) 2 (7 / 3) (-e * η) (-toRat e * toRat η) :=
        (Near.of_finite hx.scale he hsize (by norm_num)).neg.mul hdamping
          (by rw [mul_one]; exact hx.scale) (by norm_num) (by norm_num) (by norm_num)
      rwa [mul_one] at hproduct
    have hsum : Near (extent p) 3 6 (x + -e * η) (toRat x + -toRat e * toRat η) :=
      hx.add hmove (by norm_num) (by norm_num) (by norm_num)
    rw [neg_mul, ← sub_eq_add_neg] at hsum
    exact hsum.resize (by rwa [one_mul]) (by norm_num)
  have hswap : 512 * (unitPart * (exact ht).swap.halfTrace ^ 2) ≤ (exact ht).swap.det := by
    rwa [ExactForm.halfTrace_swap, ExactForm.det_swap]
  have hsizey := hnear.swap.abs_direction_le hswap
  have hreachedy := hnear.swap.abs_newton_le hswap hη0 hη1
  rw [max_comm] at hsizey hreachedy
  exact ⟨hcoordinate hx hdx (hnear.abs_direction_le hf) (hnear.abs_newton_le hf hη0 hη1),
    hcoordinate hy hdy hsizey hreachedy⟩

/-- **A Newton step does not climb beyond rounding**, and not at all if its damping is not lost in
it. -/
theorem newton_step :
    let p' := (StepRule.dampedNewton η).propose q.objective p
    q.RisesAtMost (2 ^ (-45 : ℤ) * q.valueScale p) p p' ∧
      (512 * (unitPart * q.halfTrace ^ 2) ≤ toRat η * q.exactDet →
        q.objective.evaluate p' ≤ q.objective.evaluate p) := by
  intro p'
  have hpropose : p' = p.step (-inverse.mulVec (q.objective.gradient p)) η := by
    simp only [p', StepRule.propose, h]
  obtain ⟨hx, hy⟩ := near_newton_point ht hp hs hf h hη hη0 hη1
  obtain ⟨-, hnear⟩ := nearNewton ht hp hs hf h
  have hvalue := hnear.value_newton_le hf hη0 hη1
  have hstart := (exact ht).value_nonneg (toRat p.x) (toRat p.y)
  rw [hpropose]
  constructor
  · refine risesAtMost_of_near ht hs hp hx hy (by norm_num) (by norm_num) (by norm_num) ?_
    linarith [mul_nonneg hη0.le hstart]
  · intro hdamping
    refine evaluate_le_of_near ht hs hp hx hy (by norm_num) (by norm_num) ?_
    have hscale := det_mul_scale_le ht (p := p)
    -- the part that the step takes, against all units of error
    have hunits : 128 * (unitPart * q.valueScale p) ≤
        toRat η * (exact ht).value (toRat p.x) (toRat p.y) := by
      have hdet := (exact ht).det_pos
      rw [det_exact] at hdet
      refine le_of_mul_le_mul_left ?_ hdet
      have hleft := mul_le_mul_of_nonneg_left hscale unitPart_pos.le
      have hright := mul_le_mul_of_nonneg_right hdamping hstart
      linarith
    linarith [mul_nonneg hη0.le hstart]

end Newton

/-! ## 5. Falling back -/

section Fallback

variable {q : QuadraticForm Float} {p : Point Float} (ht : q.halfTrace ≤ 2 ^ (500 : ℤ))
  (hp : p.isFinite = true) (hs : Between (-1018) 1010 (q.valueScale p))
  (hsmall : q.halfTrace ≤ 1) {η : Float} (h : StepRule.newtonInverse? q.objective = none)

include ht hsmall

/-- A form whose Hessian reads as singular has a small trace, if its determinant is not small
beside the trace. -/
theorem halfTrace_le_of_singular (hf : 512 * (unitPart * q.halfTrace ^ 3) ≤ q.exactDet ^ 2)
    (h : StepRule.newtonInverse? q.objective = none) : q.halfTrace ≤ 1 / 128 := by
  have hnear := near_det ht isScale_one (by rw [mul_one]; exact isScale_one) hsmall
  have hsingular : Scalar.abs q.objective.hessian.det < (1e-10 : Float) := by
    by_contra hlarge
    have hsome : StepRule.newtonInverse? q.objective = some _ :=
      if_neg (by simp [hnear.finite, hlarge, StepRule.singularTolerance])
    rw [h] at hsome
    cases hsome
  have htolerance : toRat 1e-10 = (7737125245533627 : ℕ) * 2 ^ (-86 : ℤ) := rfl
  have hlt := (lt_iff_toRat (isFinite_abs hnear.finite) rfl).mp hsingular
  rw [toRat_abs, htolerance] at hlt
  have herror := hnear.error
  rw [det_exact, unitPart_eq] at herror
  have hdet : q.exactDet ≤ 1 / 2 ^ (33 : ℕ) := by
    norm_num at hlt herror ⊢
    linarith [(abs_lt.mp hlt).2, (abs_le.mp herror).1]
  have hpos : 0 ≤ q.exactDet := (exactDet_pos ht).le
  have hsquare : q.exactDet ^ 2 ≤ (1 / 2 ^ (33 : ℕ)) ^ 2 := pow_le_pow_left₀ hpos hdet 2
  by_contra! hlarge
  have hcube : (1 / 128) ^ 3 ≤ q.halfTrace ^ 3 := pow_le_pow_left₀ (by norm_num) hlarge.le 3
  rw [unitPart_eq] at hf
  norm_num at hsquare hcube
  linarith

include hp hs

/-- The fixed gradient step reaches a point near to the one it aims at. -/
theorem near_fallback_point :
    let g := q.objective.gradient p
    let units := 14 * q.halfTrace + 3 / 2
    Near (extent p) (23 / 16) units (p.x + -g.x * StepRule.fallbackStepSize)
        (toRat p.x - (exact ht).slopeX (toRat p.x) (toRat p.y)) ∧
      Near (extent p) (23 / 16) units (p.y + -g.y * StepRule.fallbackStepSize)
        (toRat p.y - (exact ht).slopeY (toRat p.x) (toRat p.y)) := by
  intro g units
  obtain ⟨hx, hy⟩ := near_point ht hp hs
  obtain ⟨hgx, hgy⟩ := near_gradient ht hp hs
  have ht0 := (between_halfTrace ht).pos
  have hsize : Near 1 1 0 (StepRule.fallbackStepSize : Float) 1 := by
    have hone : toRat (StepRule.fallbackStepSize : Float) = 1 := toRat_one
    have h : Near 1 1 0 (StepRule.fallbackStepSize : Float) (toRat StepRule.fallbackStepSize) :=
      .of_finite isScale_one rfl (by rw [hone]; norm_num) (by norm_num)
    rwa [hone] at h
  have hcoordinate {x e : Float} {s : ℚ} (hx : Near (extent p) 1 0 x (toRat x))
      (he : Near (q.halfTrace * extent p) 3 7 e s)
      (hreached : |toRat x - s| ≤ 23 / 16 * extent p) :
      Near (extent p) (23 / 16) units (x + -e * StepRule.fallbackStepSize) (toRat x - s) := by
    rw [mul_comm] at he
    have hslope := (he.rescale hx.scale hsmall).neg
    have hmove : Near (extent p) (3 * q.halfTrace) (21 / 2 * q.halfTrace + 1 / 4)
        (-e * StepRule.fallbackStepSize) (-s * 1) := by
      have hproduct : Near (extent p * 1) (3 * q.halfTrace) (21 / 2 * q.halfTrace + 1 / 4)
          (-e * StepRule.fallbackStepSize) (-s * 1) :=
        hslope.mul hsize (by rw [mul_one]; exact hx.scale) (by linarith) (by linarith)
          ⟨by linarith, by linarith⟩
      rwa [mul_one (extent p)] at hproduct
    have hsum : Near (extent p) (1 + 3 * q.halfTrace) units
        (x + -e * StepRule.fallbackStepSize) (toRat x + -s * 1) :=
      hx.add hmove (by linarith) (by simp only [units]; linarith)
        ⟨by linarith, by simp only [units]; linarith⟩
    rw [mul_one, ← sub_eq_add_neg] at hsum
    exact hsum.resize hreached (by norm_num)
  have hreachedy := (exact ht).swap.abs_gradient_step_le (x := toRat p.y) (y := toRat p.x)
    (by rwa [ExactForm.halfTrace_swap])
  rw [ExactForm.slopeX_swap, max_comm] at hreachedy
  exact ⟨hcoordinate hx hgx ((exact ht).abs_gradient_step_le hsmall), hcoordinate hy hgy hreachedy⟩

include h

/-- **A step that falls back does not climb beyond rounding**, if the fixed size is below the
stability limit, and not at all if the determinant is not small beside the trace. -/
theorem fallback_step :
    let p' := (StepRule.dampedNewton η).propose q.objective p
    q.RisesAtMost (2 ^ (-45 : ℤ) * q.valueScale p) p p' ∧
      (512 * (unitPart * q.halfTrace ^ 3) ≤ q.exactDet ^ 2 →
        q.objective.evaluate p' ≤ q.objective.evaluate p) := by
  intro p'
  have hpropose : p' = p.step (-q.objective.gradient p) StepRule.fallbackStepSize := by
    simp only [p', StepRule.propose, h]
  obtain ⟨hx, hy⟩ := near_fallback_point ht hp hs hsmall
  rw [hpropose]
  constructor
  · exact risesAtMost_of_near ht hs hp hx hy le_rfl (by linarith) (by linarith)
      ((exact ht).value_gradient_step_le hsmall)
  · intro hf
    have htiny := halfTrace_le_of_singular ht hsmall hf h
    refine evaluate_le_of_near ht hs hp hx hy le_rfl (by linarith) ?_
    have hdescent := (exact ht).det_mul_value_le (x := toRat p.x) (y := toRat p.y)
      (by rw [halfTrace_exact]; linarith)
    have hstart := (exact ht).value_nonneg (toRat p.x) (toRat p.y)
    have hdet := (exact ht).det_pos
    have ht0 := (between_halfTrace ht).pos
    have hscale := det_mul_scale_le ht (p := p)
    rw [det_exact] at hdescent hdet
    rw [halfTrace_exact] at hdescent
    -- the part that the step takes, against all units of error
    have hunits : 64 * (unitPart * q.valueScale p) ≤ (exact ht).value (toRat p.x) (toRat p.y) -
        (exact ht).value (toRat p.x - (exact ht).slopeX (toRat p.x) (toRat p.y))
          (toRat p.y - (exact ht).slopeY (toRat p.x) (toRat p.y)) := by
      refine le_of_mul_le_mul_left ?_ (mul_pos (mul_pos two_pos ht0) hdet)
      have hleft := mul_le_mul_of_nonneg_left hscale
        (mul_nonneg ht0.le unitPart_pos.le)
      have hright := mul_le_mul_of_nonneg_right hf hstart
      have hmiddle := mul_le_mul_of_nonneg_left hdescent hdet.le
      linarith
    have hunit := (mul_pos unitPart_pos hs.pos).le
    have htotal : (4 * (23 / 16) * (14 * q.halfTrace + 3 / 2) + 41) *
        (unitPart * q.valueScale p) ≤ 64 * (unitPart * q.valueScale p) :=
      mul_le_mul_of_nonneg_right (by linarith) hunit
    linarith

end Fallback

/-! ## 6. All steps -/

section Steps

variable {q : QuadraticForm Float} {p : Point Float} {η : Float}

/-- A step that stays at the origin neither climbs nor descends. -/
theorem step_at_origin {p' : Point Float} (hp : IsZero p.x ∧ IsZero p.y)
    (hp' : IsZero p'.x ∧ IsZero p'.y) {r : ℚ} (hr : 0 ≤ r) :
    q.RisesAtMost r p p' ∧ q.objective.evaluate p' ≤ q.objective.evaluate p := by
  have hbefore := q.evaluate_origin hp
  have hafter := q.evaluate_origin hp'
  refine ⟨⟨hafter.isFinite, ?_⟩, ?_⟩
  · rw [hafter.toRat_eq, hbefore.toRat_eq, zero_add]
    exact hr
  · rw [le_iff_toRat hafter.isFinite hbefore.isFinite, hafter.toRat_eq, hbefore.toRat_eq]

theorem isZero_of_extent (hp : p.isFinite = true) (h : extent p = 0) :
    IsZero p.x ∧ IsZero p.y := by
  obtain ⟨hx, hy⟩ := point_isFinite_iff.mp hp
  rw [isZero_iff_toRat hx, isZero_iff_toRat hy, ← abs_nonpos_iff, ← abs_nonpos_iff]
  exact ⟨(le_max_left _ _).trans h.le, (le_max_right _ _).trans h.le⟩

/-- At the origin the gradient is zero, as its coefficients are in range. -/
theorem isZero_gradient (ht : q.halfTrace ≤ 2 ^ (500 : ℤ)) (hp : IsZero p.x ∧ IsZero p.y) :
    IsZero (q.objective.gradient p).x ∧ IsZero (q.objective.gradient p).y :=
  have ⟨ha, _, hc⟩ := near_entries ht (isScale_halfTrace ht) le_rfl
  q.gradient_origin ha.finite hc.finite hp.1 hp.2

theorem rise_nonneg (ht : q.halfTrace ≤ 2 ^ (500 : ℤ)) : 0 ≤ 2 ^ (-45 : ℤ) * q.valueScale p :=
  mul_nonneg (by positivity) (mul_nonneg (between_halfTrace ht).pos.le (sq_nonneg _))

/-- A step from the origin stays there. -/
theorem isZero_propose_regular (ht : q.halfTrace ≤ 2 ^ (500 : ℤ))
    (hf : 512 * (unitPart * q.halfTrace ^ 2) ≤ q.exactDet) {inverse : Mat Float}
    (h : StepRule.newtonInverse? q.objective = some inverse) (hη : η.isFinite = true)
    (hp : IsZero p.x ∧ IsZero p.y) :
    IsZero ((StepRule.dampedNewton η).propose q.objective p).x ∧
      IsZero ((StepRule.dampedNewton η).propose q.objective p).y := by
  simp only [StepRule.propose, h]
  exact isZero_step hp (Mat.isZero_mulVec (isFinite_inverse ht hf h) (isZero_gradient ht hp)) hη

theorem isZero_propose_singular (ht : q.halfTrace ≤ 2 ^ (500 : ℤ))
    (h : StepRule.newtonInverse? q.objective = none) (hp : IsZero p.x ∧ IsZero p.y) :
    IsZero ((StepRule.dampedNewton η).propose q.objective p).x ∧
      IsZero ((StepRule.dampedNewton η).propose q.objective p).y := by
  simp only [StepRule.propose, h]
  exact isZero_step hp (isZero_gradient ht hp) rfl

theorem two_pow_neg_44 : 512 * unitPart * 2 ^ 44 = 1 := by norm_num [unitPart]

/-- **Damped Newton in rounded arithmetic.**  A step that does not fall back needs some correct
digits in the determinant, and one that falls back a trace of at most two.  Then it climbs by
rounding at most, and not at all where the descent it aims at exceeds that. -/
theorem rounded_newton_descends (hη : 0.0 < η) (hη1 : η ≤ 1.0) (hp : q.InRange p) :
    let rule := StepRule.dampedNewton η
    let p' := rule.propose q.objective p
    let rises := q.RisesAtMost (2 ^ (-45 : ℤ) * q.valueScale p) p p'
    let descends := q.objective.evaluate p' ≤ q.objective.evaluate p
    (rule.fallsBack q.objective = false → q.halfTrace ≤ 2 ^ (500 : ℤ) →
      q.halfTrace ^ 2 ≤ 2 ^ 44 * q.exactDet →
        rises ∧ (q.halfTrace ^ 2 ≤ 2 ^ 44 * (toRat η * q.exactDet) → descends)) ∧
    (rule.fallsBack q.objective = true → q.halfTrace ≤ 1 →
      rises ∧ (q.halfTrace ^ 3 ≤ 2 ^ 44 * q.exactDet ^ 2 → descends)) := by
  intro rule p' rises descends
  have hfinite : η.isFinite = true := finite_of_between rfl rfl (le_of_lt hη) hη1
  have hη0 : 0 < toRat η := by rwa [lt_iff_toRat rfl hfinite, toRat_zero] at hη
  have hηle : toRat η ≤ 1 := by rwa [le_iff_toRat hfinite rfl, toRat_one] at hη1
  have hunits {x y : ℚ} (hxy : x ≤ 2 ^ 44 * y) : 512 * (unitPart * x) ≤ y := by
    have hpos : 0 ≤ 512 * unitPart := mul_nonneg (by norm_num) unitPart_pos.le
    have h := mul_le_mul_of_nonneg_left hxy hpos
    rwa [← mul_assoc _ _ y, two_pow_neg_44, one_mul, mul_assoc] at h
  obtain ⟨hpoint, hplace⟩ := hp
  constructor
  · intro hregular ht hdefinite
    cases h : StepRule.newtonInverse? q.objective with
    | none =>
      simp only [rule, StepRule.fallsBack, h] at hregular
      cases hregular
    | some inverse =>
      have hf := hunits hdefinite
      rcases hplace with hzero | hs
      · have hat := isZero_of_extent hpoint hzero
        obtain ⟨hrises, hdescends⟩ := step_at_origin (q := q) hat
          (isZero_propose_regular ht hf h hfinite hat) (rise_nonneg ht)
        exact ⟨hrises, fun _ => hdescends⟩
      · obtain ⟨hrises, hdescends⟩ := newton_step ht hpoint hs hf h hfinite hη0 hηle
        exact ⟨hrises, fun hdamping => hdescends (hunits hdamping)⟩
  · intro hsingular hsmall
    have h : StepRule.newtonInverse? q.objective = none := Option.isNone_iff_eq_none.mp hsingular
    have ht : q.halfTrace ≤ 2 ^ (500 : ℤ) := hsmall.trans (one_le_zpow₀ one_le_two (by norm_num))
    rcases hplace with hzero | hs
    · have hat := isZero_of_extent hpoint hzero
      obtain ⟨hrises, hdescends⟩ := step_at_origin (q := q) hat
        (isZero_propose_singular (η := η) ht h hat) (rise_nonneg ht)
      exact ⟨hrises, fun _ => hdescends⟩
    · obtain ⟨hrises, hdescends⟩ := fallback_step ht hpoint hs hsmall h (η := η)
      exact ⟨hrises, fun hdefinite => hdescends (hunits hdefinite)⟩

end Steps

end Downhill.QuadraticForm

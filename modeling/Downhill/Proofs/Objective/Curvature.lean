import Downhill.Proofs.Binary64.Hypotenuse
import Downhill.Proofs.Binary64.Order
import Downhill.Proofs.Objective.Definiteness
import Downhill.Proofs.Objective.Gradient

/-! # The curvature of accepted forms

The eigenvalues of the Hessian of a positive definite form are positive.  They are computed in
closed form, as the mean of the diagonal less and plus the length of a vector, and for accepted
coefficients the computed numbers say the following.

* The diagonal of the Hessian is never negative, and half of its trace is at least `2 ^ -539`: with
  a smaller one the test of the coefficients would have read a product that vanishes
  (`two_pow_le_half_trace`).  So the larger eigenvalue is positive, unless it is undefined, and the
  stability limit never overflows.
* Overflow spoils the larger one: it is infinite where a sum leads out of range, and undefined where
  both entries of the diagonal do (`isNaN_largest_iff`).  The limit is then zero or infinite
  (`isFinite_largest_iff_limit`).
* Cancellation spoils the smaller one, which is the difference of two rounded numbers.  It is
  positive as long as the discriminant is at least the part `2 ^ -52` of the square of the trace
  (`zero_lt_smallest`).

The length is one of the values that `Binary64.lean` assumes to be rounded correctly.
-/

namespace Downhill.QuadraticForm

open Binary64
open Float.Model (UnpackedFloat)

variable (q : QuadraticForm Float)

/-! ## 1. Accepted coefficients -/

theorem toRat_a_pos : 0 < toRat q.a := toRat_pos q.finite_a q.accepted.2.1

/-- The product in the discriminant does not read as zero or less: what is taken from it is a
square. -/
theorem not_product_le_zero : ¬4.0 * q.a * q.c ≤ 0.0 := fun h =>
  q.accepted.2.2 (sub_le_zero_of_signs h (zero_le_mul_self (defined_of_finite q.finite_b)))

/-- The third coefficient is not negative either. -/
theorem toRat_c_nonneg : 0 ≤ toRat q.c := by
  by_contra! hneg
  have hfour : 0.0 ≤ 4.0 * q.a :=
    (roundsTo_mul rfl q.finite_a).zero_le (by rw [toRat_four]; linarith [q.toRat_a_pos])
  exact q.not_product_le_zero (mul_le_zero hfour q.finite_c hneg)

/-- **Half of the trace is not small**: with two small coefficients their product vanishes. -/
theorem two_pow_le_half_trace : (2 : ℚ) ^ (-539 : ℤ) ≤ toRat q.a + toRat q.c := by
  by_contra! hsmall
  have ha := q.toRat_a_pos
  have hc := q.toRat_c_nonneg
  have hquarter : (2 : ℚ) ^ (-539 : ℤ) ≤ 1 / 4 :=
    (zpow_le_zpow_right₀ one_le_two (by norm_num : (-539 : ℤ) ≤ -2)).trans (by norm_num)
  have hfour : (4.0 * q.a).isFinite = true := by
    refine ((roundsTo_mul rfl q.finite_a).bounded_two_pow (k := 0) (by norm_num) (by norm_num)
      ?_).1
    rw [toRat_four, abs_of_pos (by linarith), zpow_zero]
    linarith
  have hproduct : 4 * toRat q.a * toRat q.c < 2 ^ (-1075 : ℤ) := by
    calc 4 * toRat q.a * toRat q.c ≤ (toRat q.a + toRat q.c) ^ 2 := by
          linarith [sq_nonneg (toRat q.a - toRat q.c),
            show (toRat q.a + toRat q.c) ^ 2 =
              (toRat q.a - toRat q.c) ^ 2 + 4 * toRat q.a * toRat q.c by ring]
      _ < (2 ^ (-539 : ℤ)) ^ 2 := pow_lt_pow_left₀ hsmall (by linarith) two_ne_zero
      _ = 2 ^ (-1078 : ℤ) := by rw [← zpow_natCast, ← zpow_mul]; rfl
      _ < 2 ^ (-1075 : ℤ) := zpow_lt_zpow_right₀ one_lt_two (by norm_num)
  have hround := roundsTo_mul hfour q.finite_c
  rw [toRat_four_mul q.finite_a hfour] at hround
  have hnonneg : 0 ≤ 4 * toRat q.a * toRat q.c := by positivity
  have hfinite : (4.0 * q.a * q.c).isFinite = true := by
    refine (hround.bounded_two_pow (k := -1074) (by norm_num) (by norm_num) ?_).1
    rw [abs_of_nonneg hnonneg]
    exact hproduct.le.trans (zpow_le_zpow_right₀ one_le_two (by norm_num))
  refine q.not_product_le_zero ((le_iff_toRat hfinite rfl).mpr ?_)
  rw [hround.toRat_eq hfinite, rounded_eq_zero hnonneg hproduct, toRat_zero]

/-! ## 2. Mean and spread -/

/-- Half of the trace of the Hessian. -/
def mean : Float := 0.5 * (2.0 * q.a + 2.0 * q.c)

/-- Half of the difference on the diagonal. -/
def halfGap : Float := 0.5 * (2.0 * q.a - 2.0 * q.c)

/-- How far the eigenvalues are from the mean: they read as `mean - spread` and `mean + spread`. -/
def spread : Float := hypotenuse q.halfGap q.b

theorem roundsTo_two_mul_a : RoundsTo (2.0 * q.a) (2 * toRat q.a) :=
  toRat_two ▸ roundsTo_mul rfl q.finite_a

theorem roundsTo_two_mul_c : RoundsTo (2.0 * q.c) (2 * toRat q.c) :=
  toRat_two ▸ roundsTo_mul rfl q.finite_c

theorem zero_le_two_mul_a : 0.0 ≤ 2.0 * q.a :=
  q.roundsTo_two_mul_a.zero_le (by linarith [q.toRat_a_pos])

theorem zero_le_two_mul_c : 0.0 ≤ 2.0 * q.c :=
  q.roundsTo_two_mul_c.zero_le (by linarith [q.toRat_c_nonneg])

theorem zero_le_mean : 0.0 ≤ q.mean :=
  zero_le_half_mul (zero_le_add q.zero_le_two_mul_a q.zero_le_two_mul_c)

/-- Two infinite entries on the diagonal have no difference. -/
theorem spread_undefined (ha : (2.0 * q.a).isFinite ≠ true) (hc : (2.0 * q.c).isFinite ≠ true) :
    unpacked q.spread = .notANumber := by
  have ha := (nonneg_cases q.zero_le_two_mul_a).resolve_left fun h => ha h.1
  have hc := (nonneg_cases q.zero_le_two_mul_c).resolve_left fun h => hc h.1
  have hgap : unpacked q.halfGap = .notANumber := by
    refine mul_undefined (Or.inr ?_)
    rw [unpacked_sub, ha, hc]
    rfl
  refine hypotenuse_undefined (Or.inl hgap) (fun s hs => ?_) fun s hs => ?_
  · rw [hgap] at hs
    cases hs
  · obtain ⟨t, ht⟩ | ⟨t, m, e, hm, ht⟩ := unpacked_cases q.finite_b <;> rw [ht] at hs <;> cases hs

/-- One finite entry is enough for them to have a difference, which may be infinite. -/
theorem spread_defined (h : (2.0 * q.a).isFinite = true ∨ (2.0 * q.c).isFinite = true) :
    q.spread.isNaN = false := by
  have hdifference : (2.0 * q.a - 2.0 * q.c).isNaN = false := by
    rcases h with ha | hc
    · exact sub_defined ha q.roundsTo_two_mul_c.isNaN
    · rcases nonneg_cases q.zero_le_two_mul_a with ⟨ha, -⟩ | ha
      · exact sub_defined ha q.roundsTo_two_mul_c.isNaN
      · change (unpacked (2.0 * q.a - 2.0 * q.c)).isNaN = false
        rw [unpacked_sub, ha]
        obtain ⟨t, ht⟩ | ⟨t, m, e, hm, ht⟩ := unpacked_cases hc <;> rw [ht] <;> rfl
  refine hypotenuse_defined_of_finite ?_ q.finite_b
  by_cases hfinite : (2.0 * q.a - 2.0 * q.c).isFinite = true
  · exact (roundsTo_mul rfl hfinite).isNaN
  · obtain ⟨s, hs⟩ := infinite_of_not_finite hfinite hdifference
    change (unpacked (0.5 * (2.0 * q.a - 2.0 * q.c))).isNaN = false
    rw [unpacked_mul, hs]
    cases s <;> rfl

/-! ## 3. The larger eigenvalue -/

/-- With one finite entry on the diagonal the larger eigenvalue is not negative. -/
theorem zero_le_largest (h : (2.0 * q.a).isFinite = true ∨ (2.0 * q.c).isFinite = true) :
    0.0 ≤ q.mean + q.spread :=
  zero_le_add q.zero_le_mean (zero_le_hypotenuse (q.spread_defined h))

/-- **The larger eigenvalue is undefined exactly if both entries of the diagonal are infinite.** -/
theorem isNaN_largest_iff :
    (q.mean + q.spread).isNaN = true ↔
      (2.0 * q.a).isFinite = false ∧ (2.0 * q.c).isFinite = false := by
  rw [← Bool.not_eq_true, ← Bool.not_eq_true, ← not_or]
  constructor
  · intro hundefined hone
    exact absurd ((defined_of_le (q.zero_le_largest hone)).2.symm.trans hundefined)
      Bool.false_ne_true
  · intro hboth
    rw [not_or] at hboth
    exact isNaN_iff_unpacked.mpr (add_undefined (Or.inr (q.spread_undefined hboth.1 hboth.2)))

section Finite

variable {q} (h : (q.mean + q.spread).isFinite = true)

include h

theorem finite_spread : q.spread.isFinite = true := (finite_of_add h).2

theorem finite_mean : q.mean.isFinite = true := (finite_of_add h).1

theorem finite_trace : (2.0 * q.a + 2.0 * q.c).isFinite = true := (finite_of_mul (finite_mean h)).2

theorem finite_halfGap : q.halfGap.isFinite = true := (finite_of_hypotenuse (finite_spread h)).1

theorem spread_nonneg : 0 ≤ toRat q.spread := by
  have hzero : 0.0 ≤ q.spread := zero_le_hypotenuse (defined_of_finite (finite_spread h))
  rwa [le_iff_toRat rfl (finite_spread h), toRat_zero] at hzero

theorem toRat_two_mul_a : toRat (2.0 * q.a) = 2 * toRat q.a :=
  toRat_two_mul (finite_of_add (finite_trace h)).1

theorem toRat_two_mul_c : toRat (2.0 * q.c) = 2 * toRat q.c :=
  toRat_two_mul (finite_of_add (finite_trace h)).2

/-- The larger eigenvalue is not small. -/
theorem two_pow_le_largest : (2 : ℚ) ^ (-539 : ℤ) ≤ toRat (q.mean + q.spread) := by
  obtain ⟨ha, hc⟩ := finite_of_add (finite_trace h)
  have hsum := q.two_pow_le_half_trace
  have htrace : (2 : ℚ) ^ (-538 : ℤ) ≤ toRat (2.0 * q.a + 2.0 * q.c) := by
    refine (roundsTo_add ha hc).grid_le (finite_trace h) (onGrid_two_pow (by norm_num)) ?_
    rw [toRat_two_mul_a h, toRat_two_mul_c h, show (-538 : ℤ) = -539 + 1 by norm_num,
      zpow_add_one₀ two_ne_zero]
    linarith
  have hmean : (2 : ℚ) ^ (-539 : ℤ) ≤ toRat q.mean := by
    refine (roundsTo_mul rfl (finite_trace h)).grid_le (finite_mean h)
      (onGrid_two_pow (by norm_num)) ?_
    rw [toRat_half, show (-539 : ℤ) = -538 - 1 by norm_num, zpow_sub_one₀ two_ne_zero]
    linarith
  refine (roundsTo_add (finite_mean h) (finite_spread h)).grid_le h
    (onGrid_two_pow (by norm_num)) ?_
  linarith [spread_nonneg h]

end Finite

/-- **A larger eigenvalue that is not undefined is positive.** -/
theorem zero_lt_largest (h : (q.mean + q.spread).isNaN = false) : 0.0 < q.mean + q.spread := by
  by_cases hfinite : (q.mean + q.spread).isFinite = true
  · rw [lt_iff_toRat rfl hfinite, toRat_zero]
    exact lt_of_lt_of_le (by positivity) (two_pow_le_largest hfinite)
  · have hone : (2.0 * q.a).isFinite = true ∨ (2.0 * q.c).isFinite = true := by
      by_contra! hboth
      simp only [Bool.not_eq_true] at hboth
      exact absurd (h.symm.trans (q.isNaN_largest_iff.mpr hboth)) Bool.false_ne_true
    exact lt_of_not_finite (q.zero_le_largest hone) hfinite rfl

/-! ## 4. The stability limit -/

theorem stabilityLimit_of_pos (h : 0.0 < q.mean + q.spread) :
    q.objective.stabilityLimit = 2.0 / (q.mean + q.spread) := if_pos h

/-- A finite larger eigenvalue gives a finite positive limit. -/
theorem limit_of_finite (h : (q.mean + q.spread).isFinite = true) :
    q.objective.stabilityLimit.isFinite = true ∧ 0.0 < q.objective.stabilityLimit := by
  have hlow := two_pow_le_largest h
  have hpos : 0 < toRat (q.mean + q.spread) := lt_of_lt_of_le (by positivity) hlow
  have hhigh : toRat (q.mean + q.spread) < 2 ^ (1024 : ℤ) :=
    (le_abs_self _).trans_lt (abs_toRat_lt h)
  have hround := roundsTo_div (x := 2.0) rfl h hpos.ne'
  rw [toRat_two] at hround
  rw [q.stabilityLimit_of_pos (q.zero_lt_largest (defined_of_finite h))]
  have hquotient : (2 : ℚ) ^ (-1024 : ℤ) ≤ 2 / toRat (q.mean + q.spread) := by
    rw [le_div_iff₀ hpos]
    calc (2 : ℚ) ^ (-1024 : ℤ) * toRat (q.mean + q.spread)
        ≤ 2 ^ (-1024 : ℤ) * 2 ^ (1024 : ℤ) := mul_le_mul_of_nonneg_left hhigh.le (by positivity)
      _ = 1 := by rw [← zpow_add₀ two_ne_zero]; rfl
      _ ≤ 2 := one_le_two
  obtain ⟨hfinite, -⟩ := hround.bounded_two_pow (k := 540) (by norm_num) (by norm_num) (by
    rw [abs_of_pos (by positivity), div_le_iff₀ hpos]
    calc (2 : ℚ) = 2 ^ (540 : ℤ) * 2 ^ (-539 : ℤ) := by rw [← zpow_add₀ two_ne_zero]; rfl
      _ ≤ 2 ^ (540 : ℤ) * toRat (q.mean + q.spread) :=
          mul_le_mul_of_nonneg_left hlow (by positivity))
  refine ⟨hfinite, ?_⟩
  rw [lt_iff_toRat rfl hfinite, toRat_zero]
  exact lt_of_lt_of_le (by positivity)
    (hround.grid_le hfinite (onGrid_two_pow (by norm_num)) hquotient)

/-- An infinite one makes it zero, and an undefined one infinite. -/
theorem limit_of_not_finite (h : (q.mean + q.spread).isFinite ≠ true) :
    (q.mean + q.spread).isNaN = false ∧ unpacked q.objective.stabilityLimit = .zero .positive ∨
    (q.mean + q.spread).isNaN = true ∧
      unpacked q.objective.stabilityLimit = .infinity .positive := by
  cases hnan : (q.mean + q.spread).isNaN with
  | false =>
    have hpos := q.zero_lt_largest hnan
    have hinfinite := (nonneg_cases (le_of_lt hpos)).resolve_left fun hfinite => h hfinite.1
    refine Or.inl ⟨rfl, ?_⟩
    rw [q.stabilityLimit_of_pos hpos, unpacked_div, hinfinite]
    rfl
  | true =>
    have hnot : ¬0.0 < q.mean + q.spread := fun hpos =>
      absurd ((defined_of_le (le_of_lt hpos)).2.symm.trans hnan) Bool.false_ne_true
    have hlimit : q.objective.stabilityLimit = 1.0 / 0.0 := if_neg hnot
    refine Or.inr ⟨rfl, ?_⟩
    rw [hlimit]
    rfl

/-- **The limit is finite and positive exactly if the larger eigenvalue is finite.** -/
theorem isFinite_largest_iff_limit :
    (q.mean + q.spread).isFinite = true ↔
      q.objective.stabilityLimit.isFinite = true ∧ 0.0 < q.objective.stabilityLimit := by
  refine ⟨q.limit_of_finite, fun ⟨hfinite, hpos⟩ => ?_⟩
  by_contra hlargest
  change (unpacked q.objective.stabilityLimit).isFinite = true at hfinite
  rw [lt_iff_unpacked] at hpos
  rcases q.limit_of_not_finite hlargest with ⟨-, hform⟩ | ⟨-, hform⟩ <;>
    rw [hform] at hfinite hpos
  · cases hpos
  · cases hfinite

theorem le_of_four_mul_le {m range : ℚ} (hm : 0 < m) (h : 4 * m ≤ range) :
    m ≤ range ∧ 2 * m ≤ range := by
  constructor <;> linarith

section Range

variable {q} {m : ℚ} (hgrid : OnGrid m ∧ OnGrid (2 * m) ∧ OnGrid (4 * m))
  (hrange : 4 * m ≤ 2 ^ (1023 : ℤ)) (hm : 0 < m) (ha : toRat q.a ≤ m) (hc : toRat q.c ≤ m)

include hgrid hrange hm ha hc

/-- The diagonal is within twice the bound of the coefficients. -/
theorem finite_diagonal : (2.0 * q.a).isFinite = true ∧ (2.0 * q.c).isFinite = true := by
  obtain ⟨-, hrange₂⟩ := le_of_four_mul_le hm hrange
  constructor
  · refine (q.roundsTo_two_mul_a.bounded hgrid.2.1 hrange₂ ?_).1
    rw [abs_of_pos (by linarith [q.toRat_a_pos])]
    linarith
  · refine (q.roundsTo_two_mul_c.bounded hgrid.2.1 hrange₂ ?_).1
    rw [abs_of_nonneg (by linarith [q.toRat_c_nonneg])]
    linarith

/-- So is the mean. -/
theorem mean_within : q.mean.isFinite = true ∧ |toRat q.mean| ≤ 2 * m := by
  obtain ⟨fa, fc⟩ := finite_diagonal hgrid hrange hm ha hc
  obtain ⟨ftrace, htrace⟩ := (roundsTo_add fa fc).bounded hgrid.2.2 hrange (by
    rw [toRat_two_mul fa, toRat_two_mul fc, abs_le]
    constructor <;> linarith [q.toRat_a_pos, q.toRat_c_nonneg])
  refine (roundsTo_mul rfl ftrace).bounded hgrid.2.1 (le_of_four_mul_le hm hrange).2 ?_
  rw [toRat_half, one_div_mul_eq_div, abs_div, abs_two]
  linarith

/-- Half of the difference is within the bound itself. -/
theorem halfGap_within : q.halfGap.isFinite = true ∧ |toRat q.halfGap| ≤ m := by
  obtain ⟨hrange₁, hrange₂⟩ := le_of_four_mul_le hm hrange
  obtain ⟨fa, fc⟩ := finite_diagonal hgrid hrange hm ha hc
  obtain ⟨fgap, hgap⟩ := (roundsTo_sub fa fc).bounded hgrid.2.1 hrange₂ (by
    rw [toRat_two_mul fa, toRat_two_mul fc, abs_le]
    constructor <;> linarith [q.toRat_a_pos, q.toRat_c_nonneg])
  refine (roundsTo_mul rfl fgap).bounded hgrid.1 hrange₁ ?_
  rw [toRat_half, one_div_mul_eq_div, abs_div, abs_two]
  linarith

theorem spread_within (hb : |toRat q.b| ≤ m) :
    q.spread.isFinite = true ∧ |toRat q.spread| ≤ 2 * m := by
  obtain ⟨fgap, hgap⟩ := halfGap_within hgrid hrange hm ha hc
  have hlegs : toRat q.halfGap ^ 2 + toRat q.b ^ 2 ≤ (2 * m) ^ 2 := by
    have hfirst := sq_le_sq.mpr (hgap.trans (le_abs_self m))
    have hsecond := sq_le_sq.mpr (hb.trans (le_abs_self m))
    linarith [sq_nonneg m, show (2 * m) ^ 2 = 4 * m ^ 2 by ring]
  obtain ⟨v, hv, hvm, hround⟩ := exists_roundsTo_hypotenuse fgap q.finite_b (by linarith) hlegs
  exact hround.bounded hgrid.2.1 (le_of_four_mul_le hm hrange).2 (by rwa [abs_of_nonneg hv])

end Range

/-- Coefficients well within range give a finite larger eigenvalue. -/
theorem isFinite_largest (ha : |toRat q.a| ≤ 2 ^ (1021 : ℤ)) (hb : |toRat q.b| ≤ 2 ^ (1021 : ℤ))
    (hc : |toRat q.c| ≤ 2 ^ (1021 : ℤ)) : (q.mean + q.spread).isFinite = true := by
  have hdouble : (2 : ℚ) * 2 ^ (1021 : ℤ) = 2 ^ (1022 : ℤ) :=
    (zpow_one_add₀ two_ne_zero 1021).symm
  have hfour : (4 : ℚ) * 2 ^ (1021 : ℤ) = 2 ^ (1023 : ℤ) := by
    rw [show (4 : ℚ) = 2 * 2 by norm_num, mul_assoc, hdouble]
    exact (zpow_one_add₀ two_ne_zero 1022).symm
  have hgrid : OnGrid (2 ^ (1021 : ℤ)) ∧ OnGrid (2 * 2 ^ (1021 : ℤ)) ∧
      OnGrid (4 * 2 ^ (1021 : ℤ)) := by
    rw [hdouble, hfour]
    exact ⟨onGrid_two_pow (by norm_num), onGrid_two_pow (by norm_num),
      onGrid_two_pow (by norm_num)⟩
  have hpos : (0 : ℚ) < 2 ^ (1021 : ℤ) := by positivity
  have ha := (le_abs_self _).trans ha
  have hc := (le_abs_self _).trans hc
  obtain ⟨fmean, hmean⟩ := mean_within hgrid hfour.le hpos ha hc
  obtain ⟨fspread, hspread⟩ := spread_within hgrid hfour.le hpos ha hc hb
  generalize (2 : ℚ) ^ (1021 : ℤ) = m at *
  refine ((roundsTo_add fmean fspread).bounded hgrid.2.2 hfour.le ?_).1
  exact (abs_add_le _ _).trans (by linarith)

/-! ## 5. The smaller eigenvalue -/

/-- A leg that is stretched and moved outwards stretches and moves the bound of the length. -/
theorem legs_le {g b r k ε : ℚ} (hr : 0 ≤ r) (hk : 1 ≤ k) (hε : 0 ≤ ε)
    (h : g ^ 2 + b ^ 2 ≤ r ^ 2) : (k * g + ε) ^ 2 + b ^ 2 ≤ (k * r + ε) ^ 2 := by
  have hle : g ≤ r := le_of_sq_le_sq (by linarith [sq_nonneg b]) hr
  have hsquare : k ^ 2 * (g ^ 2 + b ^ 2) ≤ k ^ 2 * r ^ 2 :=
    mul_le_mul_of_nonneg_left h (sq_nonneg k)
  have hb : b ^ 2 ≤ k ^ 2 * b ^ 2 := le_mul_of_one_le_left (sq_nonneg b) (one_le_pow₀ hk)
  have hmixed : k * ε * g ≤ k * ε * r := mul_le_mul_of_nonneg_left hle (by positivity)
  linarith [show (k * g + ε) ^ 2 = k ^ 2 * g ^ 2 + 2 * (k * ε * g) + ε ^ 2 by ring,
    show (k * r + ε) ^ 2 = k ^ 2 * r ^ 2 + 2 * (k * ε * r) + ε ^ 2 by ring]

/-- What the discriminant leaves bounds the exact length of the vector, without a root. -/
theorem legs_of_discriminant {a b c u : ℚ} (h : 2 * u * (2 * a + 2 * c) ^ 2 ≤ 4 * a * c - b ^ 2) :
    |a - c| ^ 2 + b ^ 2 ≤ ((a + c) * (1 - 4 * u)) ^ 2 := by
  rw [sq_abs]
  linarith [sq_nonneg ((a + c) * u),
    show ((a + c) * (1 - 4 * u)) ^ 2 = (a - c) ^ 2 + 4 * a * c - 2 * u * (2 * a + 2 * c) ^ 2 +
      16 * ((a + c) * u) ^ 2 by ring]

/-- What is lost beside the least exponent is small beside half of the trace. -/
theorem least_le_half_trace :
    4 * 2 ^ (-1075 : ℤ) ≤ (2 : ℚ) ^ (-53 : ℤ) * (toRat q.a + toRat q.c) := by
  calc (4 * 2 ^ (-1075 : ℤ) : ℚ) = 2 ^ (2 : ℤ) * 2 ^ (-1075 : ℤ) := by norm_num
    _ = 2 ^ (-1073 : ℤ) := by rw [← zpow_add₀ two_ne_zero]; rfl
    _ ≤ 2 ^ (-53 + -539 : ℤ) := zpow_le_zpow_right₀ one_le_two (by norm_num)
    _ = 2 ^ (-53 : ℤ) * 2 ^ (-539 : ℤ) := zpow_add₀ two_ne_zero _ _
    _ ≤ _ := mul_le_mul_of_nonneg_left q.two_pow_le_half_trace (by positivity)

/-- What all roundings together take is less than what the discriminant leaves. -/
theorem spread_bound_lt_mean_bound {u s ε : ℚ} (hu : 0 < u) (hu1 : u ≤ 1) (hε : 0 < ε)
    (h : 4 * ε ≤ u * s) :
    (1 + u) * ((1 + u) * (s * (1 - 4 * u)) + ε) + ε < (1 - u) * s - ε := by
  have hs : 0 < s := pos_of_mul_pos_right (lt_of_lt_of_le (by positivity) h) hu.le
  have hslack : 0 < s * u ^ 2 * (7 + 4 * u) := by positivity
  have hsmall : u * ε ≤ ε := mul_le_of_le_one_left hε.le hu1
  linarith [show (1 + u) * ((1 + u) * (s * (1 - 4 * u)) + ε) + ε =
    (1 - u) * s - u * s - s * u ^ 2 * (7 + 4 * u) + u * ε + 2 * ε by ring]

section Smaller

variable {q} (h : (q.mean + q.spread).isFinite = true)

include h

/-- With a finite larger eigenvalue the smaller one is finite and not larger. -/
theorem smallest_le_largest :
    (q.mean - q.spread).isFinite = true ∧ q.mean - q.spread ≤ q.mean + q.spread := by
  have fmean := finite_mean h
  have fspread := finite_spread h
  have fneg := isFinite_neg fspread
  have hspread := spread_nonneg h
  have hmean := q.zero_le_mean
  rw [le_iff_toRat rfl fmean, toRat_zero] at hmean
  have hlow : -q.spread ≤ q.mean - q.spread :=
    (roundsTo_self fneg).le (roundsTo_sub fmean fspread) (by rw [toRat_neg]; linarith)
  have hle : q.mean - q.spread ≤ q.mean + q.spread :=
    (roundsTo_sub fmean fspread).le (roundsTo_add fmean fspread) (by linarith)
  exact ⟨finite_of_between fneg h hlow hle, hle⟩

/-- Half of the difference on the diagonal, with its error. -/
theorem abs_halfGap_le : |toRat q.halfGap| ≤
    (1 + 2 ^ (-53 : ℤ)) * |toRat q.a - toRat q.c| + 2 ^ (-1075 : ℤ) := by
  have hdifference := (finite_of_mul (finite_halfGap h)).2
  have hgap := abs_toRat_sub_sub_le hdifference
  have hhalf := abs_toRat_half_mul_sub_le hdifference
  rw [toRat_two_mul_a h, toRat_two_mul_c h, ← mul_sub, abs_mul, abs_two] at hgap
  rw [← halfGap] at hhalf
  generalize toRat (2.0 * q.a - 2.0 * q.c) = d at hgap hhalf
  generalize (2 : ℚ) ^ (-53 : ℤ) = u at hgap ⊢
  have hd : |d| ≤ 2 * |toRat q.a - toRat q.c| + u * (2 * |toRat q.a - toRat q.c|) := by
    have h2 : |2 * (toRat q.a - toRat q.c)| = 2 * |toRat q.a - toRat q.c| := by
      rw [abs_mul, abs_two]
    calc |d| = |2 * (toRat q.a - toRat q.c) + (d - 2 * (toRat q.a - toRat q.c))| := by ring_nf
      _ ≤ _ := (abs_add_le _ _).trans (by rw [h2]; linarith)
  calc |toRat q.halfGap| = |d / 2 + (toRat q.halfGap - d / 2)| := by ring_nf
    _ ≤ |d / 2| + |toRat q.halfGap - d / 2| := abs_add_le _ _
    _ = |d| / 2 + |toRat q.halfGap - d / 2| := by rw [abs_div, abs_two]
    _ ≤ _ := by linarith

/-- The mean, with its error. -/
theorem le_mean :
    (1 - 2 ^ (-53 : ℤ)) * (toRat q.a + toRat q.c) - 2 ^ (-1075 : ℤ) ≤ toRat q.mean := by
  have hsum := abs_toRat_add_sub_le (finite_trace h)
  have hhalf := abs_toRat_half_mul_sub_le (finite_trace h)
  have hpos : 0 < toRat q.a + toRat q.c := add_pos_of_pos_of_nonneg q.toRat_a_pos q.toRat_c_nonneg
  rw [toRat_two_mul_a h, toRat_two_mul_c h,
    abs_of_pos (by linarith : 0 < 2 * toRat q.a + 2 * toRat q.c)] at hsum
  rw [← mean] at hhalf
  generalize (2 : ℚ) ^ (-1075 : ℤ) = ε at hhalf ⊢
  generalize (2 : ℚ) ^ (-53 : ℤ) = u at hsum ⊢
  linarith [(abs_le.mp hsum).1, (abs_le.mp hhalf).1]

/-- A bound of the exact length bounds the spread, with its error. -/
theorem spread_le {w : ℚ} (hw : 0 ≤ w) (hlegs : toRat q.halfGap ^ 2 + toRat q.b ^ 2 ≤ w ^ 2) :
    toRat q.spread ≤ (1 + 2 ^ (-53 : ℤ)) * w + 2 ^ (-1075 : ℤ) := by
  obtain ⟨v, hv, hvw, hround⟩ := exists_roundsTo_hypotenuse (finite_halfGap h) q.finite_b hw hlegs
  have herror := abs_rounded_sub_le v
  rw [abs_of_nonneg hv, ← hround.toRat_eq (finite_spread h), ← spread] at herror
  have hmono : (2 : ℚ) ^ (-53 : ℤ) * v ≤ 2 ^ (-53 : ℤ) * w :=
    mul_le_mul_of_nonneg_left hvw (by positivity)
  linarith [(abs_le.mp herror).2]

/-- **Without too much cancellation the smaller eigenvalue is positive.** -/
theorem zero_lt_smallest
    (hdiscriminant : 2 ^ (-52 : ℤ) * (2 * toRat q.a + 2 * toRat q.c) ^ 2 ≤
      4 * toRat q.a * toRat q.c - toRat q.b ^ 2) : 0.0 < q.mean - q.spread := by
  have hspread := fun w : ℚ => spread_le (w := w) h
  have hgap := abs_halfGap_le h
  have hmean := le_mean h
  have hsum := q.least_le_half_trace
  have hdouble : (2 : ℚ) ^ (-52 : ℤ) = 2 * 2 ^ (-53 : ℤ) := zpow_one_add₀ two_ne_zero (-53)
  have heighth := two_pow_neg_53_le
  have hu : (0 : ℚ) < 2 ^ (-53 : ℤ) := by positivity
  have hε : (0 : ℚ) < 2 ^ (-1075 : ℤ) := by positivity
  have hpos : 0 < toRat q.a + toRat q.c := add_pos_of_pos_of_nonneg q.toRat_a_pos q.toRat_c_nonneg
  rw [hdouble] at hdiscriminant
  refine zero_lt_sub (finite_spread h) (finite_mean h) ?_
  rw [lt_iff_toRat (finite_spread h) (finite_mean h)]
  generalize (2 : ℚ) ^ (-53 : ℤ) = u at *
  generalize (2 : ℚ) ^ (-1075 : ℤ) = ε at *
  -- the exact length of the vector, with a rational bound in place of the root
  have hbound : 0 ≤ (toRat q.a + toRat q.c) * (1 - 4 * u) := mul_nonneg hpos.le (by linarith)
  have hexact := legs_of_discriminant hdiscriminant
  have hlegs : toRat q.halfGap ^ 2 + toRat q.b ^ 2 ≤
      ((1 + u) * ((toRat q.a + toRat q.c) * (1 - 4 * u)) + ε) ^ 2 := by
    have hsquare := sq_le_sq.mpr (hgap.trans (le_abs_self _))
    exact (add_le_add_left hsquare _).trans
      (legs_le hbound (by linarith) hε.le hexact)
  calc toRat q.spread
      ≤ (1 + u) * ((1 + u) * ((toRat q.a + toRat q.c) * (1 - 4 * u)) + ε) + ε :=
        hspread _ (by positivity) hlegs
    _ < (1 - u) * (toRat q.a + toRat q.c) - ε :=
        spread_bound_lt_mean_bound hu (by linarith) hε hsum
    _ ≤ toRat q.mean := hmean

end Smaller

/-! ## 6. What acceptance says of the curvature -/

/-- **The curvature of an accepted form.**

The larger eigenvalue is undefined exactly if both diagonal entries of the Hessian are infinite, and
otherwise it reads as positive.  It is finite exactly if the stability limit is finite and positive,
and then the smaller one is finite and at most as large.  It is finite whenever the coefficients are
at most `2 ^ 1021` in magnitude.  The smaller one reads as positive, where the larger one is finite
and the exact discriminant, the determinant of the exact Hessian, is at least the part `2 ^ -52` of
the square of its trace.

Both eigenvalues contain a hypotenuse.  That it is rounded correctly is an assumption about the
library of the platform, which promises no precision for it; a platform that rounds otherwise may
move the bounds `2 ^ 1021` and `2 ^ -52`. -/
theorem curvature_of_accepted (q : QuadraticForm Float) :
    let f := q.objective
    let smaller := f.hessian.eigenvalues.1
    let larger := f.hessian.eigenvalues.2
    (larger.isNaN = true ↔ f.hessian.a.isFinite = false ∧ f.hessian.d.isFinite = false) ∧
    (larger.isNaN = false → 0.0 < larger) ∧
    (larger.isFinite = true ↔ f.stabilityLimit.isFinite = true ∧ 0.0 < f.stabilityLimit) ∧
    (larger.isFinite = true → smaller.isFinite = true ∧ smaller ≤ larger) ∧
    (|toRat q.a| ≤ 2 ^ (1021 : ℤ) → |toRat q.b| ≤ 2 ^ (1021 : ℤ) →
      |toRat q.c| ≤ 2 ^ (1021 : ℤ) → larger.isFinite = true) ∧
    (larger.isFinite = true →
      2 ^ (-52 : ℤ) * (2 * toRat q.a + 2 * toRat q.c) ^ 2 ≤
        4 * toRat q.a * toRat q.c - toRat q.b ^ 2 → 0.0 < smaller) :=
  ⟨q.isNaN_largest_iff, q.zero_lt_largest, q.isFinite_largest_iff_limit, smallest_le_largest,
    q.isFinite_largest, zero_lt_smallest⟩

/-- The Hessian of the built-in form reads as positive definite, and its stability limit as finite
and positive. -/
theorem bundled_curvature :
    let f := bundled.objective
    0.0 < f.hessian.eigenvalues.1 ∧ f.hessian.eigenvalues.1 ≤ f.hessian.eigenvalues.2 ∧
      f.hessian.eigenvalues.2.isFinite = true ∧
      f.stabilityLimit.isFinite = true ∧ 0.0 < f.stabilityLimit := by
  obtain ⟨-, -, hlimit, hordered, hfinite, hpos⟩ := bundled.curvature_of_accepted
  have ha : toRat bundled.a = 5764607523034235 * 2 ^ (-59 : ℤ) := rfl
  have hb : toRat bundled.b = 5764607523034235 * 2 ^ (-58 : ℤ) := rfl
  have hc : toRat bundled.c = 5764607523034235 * 2 ^ (-57 : ℤ) := rfl
  have hrange : (1 : ℚ) ≤ 2 ^ (1021 : ℤ) := one_le_zpow₀ one_le_two (by norm_num)
  have hlarger := hfinite (le_trans (by rw [ha]; norm_num) hrange)
    (le_trans (by rw [hb]; norm_num) hrange) (le_trans (by rw [hc]; norm_num) hrange)
  exact ⟨hpos hlarger (by rw [ha, hb, hc]; norm_num), (hordered hlarger).2, hlarger,
    hlimit.mp hlarger⟩

/-- **Three accepted forms with a curvature that does not read as positive or not as finite.**
With `a = c = 2 ^ 1022` and `b = 0` the Hessian is finite and its only eigenvalue is `2 ^ 1023`, but
the trace is infinite; so is the larger eigenvalue that is read, and the limit reads as zero.  With
`a = c = 2 ^ 1023` it is undefined and the limit infinite.  With `a = 1`, `b = 0` and
`c = 2 ^ -60` the smaller eigenvalue, which is `2 ^ -59`, reads as zero. -/
theorem accepted_curvature_misread :
    (∃ q, ofCoefficients (Float.ofBits 0x7fd0000000000000) 0.0 (Float.ofBits 0x7fd0000000000000) =
        .ok q ∧
      q.objective.hessian.a.isFinite = true ∧ q.objective.hessian.d.isFinite = true ∧
      q.objective.hessian.eigenvalues.2.isFinite = false ∧
      ¬0.0 < q.objective.stabilityLimit) ∧
    (∃ q, ofCoefficients (Float.ofBits 0x7fe0000000000000) 0.0 (Float.ofBits 0x7fe0000000000000) =
        .ok q ∧
      q.objective.hessian.eigenvalues.2.isNaN = true ∧
      q.objective.stabilityLimit.isFinite = false) ∧
    (∃ q, ofCoefficients 1.0 0.0 (Float.ofBits 0x3c30000000000000) = .ok q ∧
      0 < 4 * toRat q.a * toRat q.c - toRat q.b ^ 2 ∧
      ¬0.0 < q.objective.hessian.eigenvalues.1) := by
  refine ⟨⟨⟨_, _, _, by decide +kernel⟩, dif_pos _, by decide +kernel, by decide +kernel,
      by decide +kernel, by decide +kernel⟩,
    ⟨⟨_, _, _, by decide +kernel⟩, dif_pos _, by decide +kernel, by decide +kernel⟩,
    ⟨⟨_, _, _, by decide +kernel⟩, dif_pos _, ?_, by decide +kernel⟩⟩
  have hc : toRat (.ofBits 0x3c30000000000000) = (2 ^ 52 : Nat) * 2 ^ (-112 : Int) := rfl
  rw [hc, toRat_zero, toRat_one]
  norm_num

end Downhill.QuadraticForm

import Downhill.Proofs.Binary64.Order
import Downhill.Proofs.Binary64.Precision
import Downhill.Proofs.Sampling.Drawable

/-! # What scaling keeps of a rectangle

Scaling takes the corners of a rectangle apart and puts new ones together: from the middle of a side
it goes down and up by the reach, half of the length of the side times the factor.  The new corners
are not checked.

* `Keeps`: what has to be true of a side and a factor, namely that neither end leaves the range, and
  that the reach moves at least one end away from the middle.
* `scaled_proper_iff`, `foldl_scaled_proper_iff`: the rectangle stays proper exactly if this holds,
  for one factor and at every place of a chain of factors.  A rectangle that is no longer proper
  never becomes proper again, whatever it is scaled by.
* `Roomy.keeps`: it holds of sides within half of the range that are not far from the origin
  compared to their reach.
-/

namespace Downhill

open Binary64

namespace Bounds

/-! ## 1. One side -/

/-- The middle of a side. -/
def middle (low high : Float) : Float := 0.5 * (low + high)

/-- How far a side reaches from its middle, once scaled. -/
def reach (low high factor : Float) : Float := 0.5 * (high - low) * factor

/-- Scaling leaves both ends of the side finite and moves one of them away from the middle. -/
structure Keeps (low high factor : Float) : Prop where
  finite_low : (middle low high - reach low high factor).isFinite = true
  finite_high : (middle low high + reach low high factor).isFinite = true
  moves : middle low high - reach low high factor < middle low high ∨
    middle low high < middle low high + reach low high factor

instance (low high factor : Float) : Decidable (Keeps low high factor) :=
  decidable_of_iff ((middle low high - reach low high factor).isFinite = true ∧
      (middle low high + reach low high factor).isFinite = true ∧
      (middle low high - reach low high factor < middle low high ∨
        middle low high < middle low high + reach low high factor))
    ⟨fun h => ⟨h.1, h.2.1, h.2.2⟩, fun h => ⟨h.1, h.2, h.3⟩⟩

section Side

variable {low high factor : Float}

/-- Finite ends come from a finite middle and a finite reach, and these from finite ends. -/
theorem finite_of_ends (h : (middle low high + reach low high factor).isFinite = true) :
    ((middle low high).isFinite = true ∧ (reach low high factor).isFinite = true) ∧
    ((high - low).isFinite = true ∧ (0.5 * (high - low)).isFinite = true) ∧
      low.isFinite = true ∧ high.isFinite = true := by
  obtain ⟨hmiddle, hreach⟩ := finite_of_add h
  obtain ⟨hhalf, -⟩ := finite_of_mul hreach
  obtain ⟨-, hlength⟩ := finite_of_mul hhalf
  obtain ⟨hhigh, hlow⟩ := finite_of_sub hlength
  exact ⟨⟨hmiddle, hreach⟩, ⟨hlength, hhalf⟩, hlow, hhigh⟩

/-- The reach of a side in order is not negative. -/
theorem reach_nonneg (hreach : (reach low high factor).isFinite = true) (hle : low ≤ high)
    (hfactor : 0.0 < factor) : 0 ≤ toRat (reach low high factor) := by
  obtain ⟨hhalf, ffactor⟩ := finite_of_mul hreach
  obtain ⟨-, hlength⟩ := finite_of_mul hhalf
  obtain ⟨hhigh, hlow⟩ := finite_of_sub hlength
  have hpos : 0.0 ≤ reach low high factor :=
    zero_le_mul (zero_le_half_mul (zero_le_sub hle hlow hhigh)) (le_of_lt hfactor) hhalf ffactor
  rwa [le_iff_toRat rfl hreach, toRat_zero] at hpos

/-- The reach of a side out of order is not positive. -/
theorem reach_nonpos (hreach : (reach low high factor).isFinite = true) (hle : high ≤ low)
    (hfactor : 0.0 < factor) : toRat (reach low high factor) ≤ 0 := by
  obtain ⟨hhalf, ffactor⟩ := finite_of_mul hreach
  obtain ⟨-, hlength⟩ := finite_of_mul hhalf
  obtain ⟨hhigh, hlow⟩ := finite_of_sub hlength
  rw [le_iff_toRat hhigh hlow] at hle
  rw [lt_iff_toRat rfl ffactor, toRat_zero] at hfactor
  have hlength0 : toRat (high - low) ≤ 0 :=
    (roundsTo_sub hhigh hlow).le_grid hlength .zero (by linarith)
  have hhalf0 : toRat (0.5 * (high - low)) ≤ 0 :=
    (roundsTo_mul rfl hlength).le_grid hhalf .zero
      (mul_nonpos_of_nonneg_of_nonpos (by rw [toRat_half]; norm_num) hlength0)
  exact (roundsTo_mul hhalf ffactor).le_grid hreach .zero
    (mul_nonpos_of_nonpos_of_nonneg hhalf0 hfactor.le)

/-- The ends of a side in order lie on the two sides of the middle, or on it. -/
theorem ends_around (h : (middle low high + reach low high factor).isFinite = true)
    (hle : low ≤ high) (hfactor : 0.0 < factor) :
    middle low high - reach low high factor ≤ middle low high ∧
      middle low high ≤ middle low high + reach low high factor := by
  obtain ⟨⟨hmiddle, hreach⟩, -⟩ := finite_of_ends h
  have hnonneg := reach_nonneg hreach hle hfactor
  exact ⟨(roundsTo_sub hmiddle hreach).le (roundsTo_self hmiddle) (by linarith),
    (roundsTo_self hmiddle).le (roundsTo_add hmiddle hreach) (by linarith)⟩

/-- **Scaling leaves a side in strict order exactly if it was so before and is kept.** -/
theorem scaled_side_iff (low high : Float) (hfactor : 0.0 < factor) :
    ((middle low high - reach low high factor).isFinite = true ∧
      (middle low high + reach low high factor).isFinite = true ∧
      middle low high - reach low high factor < middle low high + reach low high factor) ↔
    (low.isFinite = true ∧ high.isFinite = true ∧ low < high) ∧ Keeps low high factor := by
  constructor
  · rintro ⟨flow, fhigh, hlt⟩
    obtain ⟨⟨hmiddle, hreach⟩, -, hlow, hhigh⟩ := finite_of_ends fhigh
    have hstrict : low < high := by
      by_contra hnot
      have hle := (not_lt_iff_le (defined_of_finite hlow) (defined_of_finite hhigh)).mp hnot
      have hback : middle low high + reach low high factor ≤
          middle low high - reach low high factor :=
        (roundsTo_add hmiddle hreach).le (roundsTo_sub hmiddle hreach)
          (by linarith [reach_nonpos hreach hle hfactor])
      exact not_lt_self _ (lt_le_trans hlt hback)
    refine ⟨⟨hlow, hhigh, hstrict⟩, flow, fhigh, ?_⟩
    by_contra! hnone
    have hup := (not_lt_iff_le (defined_of_finite flow) (defined_of_finite hmiddle)).mp hnone.1
    have hdown := (not_lt_iff_le (defined_of_finite hmiddle) (defined_of_finite fhigh)).mp hnone.2
    exact not_lt_self _ (lt_le_trans hlt (le_le_trans hdown hup))
  · rintro ⟨⟨-, -, hlt⟩, flow, fhigh, hmoves⟩
    obtain ⟨hdown, hup⟩ := ends_around fhigh (le_of_lt hlt) hfactor
    exact ⟨flow, fhigh, hmoves.elim (fun h => lt_le_trans h hup) fun h => le_lt_trans hdown h⟩

end Side

/-! ## 2. Rectangles and chains of factors -/

/-- The factors by which a rectangle is scaled at all. -/
def Scales (factor : Float) : Prop := factor.isFinite = true ∧ 0.0 < factor

instance (factor : Float) : Decidable (Scales factor) := inferInstanceAs (Decidable (_ ∧ _))

/-- The factor is one that does not scale, or it keeps both sides. -/
def KeptBy (b : Bounds Float) (factor : Float) : Prop :=
  Scales factor → Keeps b.min.x b.max.x factor ∧ Keeps b.min.y b.max.y factor

instance (b : Bounds Float) (factor : Float) : Decidable (b.KeptBy factor) :=
  inferInstanceAs (Decidable (_ → _))

section Rectangle

variable (b : Bounds Float) {factor : Float}

theorem scaled_of_not_scales (h : ¬Scales factor) : b.scaled factor = b := by
  refine if_pos ?_
  cases hfinite : factor.isFinite with
  | false => simp [hfinite]
  | true =>
    have hle : factor ≤ 0.0 := (not_lt_iff_le rfl (defined_of_finite hfinite)).mp fun hlt =>
      h ⟨hfinite, hlt⟩
    simp [hle]

theorem scaled_of_scales (h : Scales factor) :
    b.scaled factor =
      ⟨⟨middle b.min.x b.max.x - reach b.min.x b.max.x factor,
          middle b.min.y b.max.y - reach b.min.y b.max.y factor⟩,
        ⟨middle b.min.x b.max.x + reach b.min.x b.max.x factor,
          middle b.min.y b.max.y + reach b.min.y b.max.y factor⟩⟩ := by
  have hle : ¬factor ≤ 0.0 := fun hle => not_lt_self _ (lt_le_trans h.2 hle)
  exact if_neg (by simp [h.1, hle])

/-- **A scaled rectangle is proper exactly if it was so before and both sides are kept.** -/
theorem scaled_proper_iff (factor : Float) :
    (b.scaled factor).Proper ↔ b.Proper ∧ b.KeptBy factor := by
  by_cases h : Scales factor
  · have hx := scaled_side_iff b.min.x b.max.x h.2
    have hy := scaled_side_iff b.min.y b.max.y h.2
    rw [b.scaled_of_scales h]
    constructor
    · rintro ⟨hmin, hmax, hltx, hlty⟩
      obtain ⟨⟨flowx, fhighx, hxlt⟩, hkeepx⟩ := hx.mp ⟨hmin.1, hmax.1, hltx⟩
      obtain ⟨⟨flowy, fhighy, hylt⟩, hkeepy⟩ := hy.mp ⟨hmin.2, hmax.2, hlty⟩
      exact ⟨⟨⟨flowx, flowy⟩, ⟨fhighx, fhighy⟩, hxlt, hylt⟩, fun _ => ⟨hkeepx, hkeepy⟩⟩
    · rintro ⟨⟨hmin, hmax, hltx, hlty⟩, hkeep⟩
      obtain ⟨flowx, fhighx, hxlt⟩ := hx.mpr ⟨⟨hmin.1, hmax.1, hltx⟩, (hkeep h).1⟩
      obtain ⟨flowy, fhighy, hylt⟩ := hy.mpr ⟨⟨hmin.2, hmax.2, hlty⟩, (hkeep h).2⟩
      exact ⟨⟨flowx, flowy⟩, ⟨fhighx, fhighy⟩, hxlt, hylt⟩
  · rw [b.scaled_of_not_scales h]
    exact (and_iff_left fun hscales => absurd hscales h).symm

end Rectangle

/-- **A chain of factors leaves a rectangle proper exactly if every factor of it keeps the rectangle
that it meets.** -/
theorem foldl_scaled_proper_iff : ∀ (factors : List Float) (b : Bounds Float),
    (factors.foldl scaled b).Proper ↔ b.Proper ∧
      ∀ before factor after, factors = before ++ factor :: after →
        (before.foldl scaled b).KeptBy factor
  | [], b => (and_iff_left fun before factor after h => by simp at h).symm
  | first :: factors, b => by
    rw [List.foldl_cons, foldl_scaled_proper_iff factors, scaled_proper_iff, and_assoc]
    refine and_congr_right fun _ => ⟨?_, fun h => ⟨h [] first factors rfl, ?_⟩⟩
    · rintro ⟨hfirst, hrest⟩ before factor after hsplit
      rcases List.cons_eq_append_iff.mp hsplit with ⟨rfl, htail⟩ | ⟨tail, rfl, htail⟩
      · cases htail
        exact hfirst
      · exact hrest tail factor after htail
    · intro before factor after hsplit
      exact h (first :: before) factor after (by rw [hsplit, List.cons_append])

/-- The corners of exactly the proper rectangles are accepted. -/
theorem ofCorners_eq_ok_iff {b : Bounds Float} : ofCorners b.min b.max = .ok b ↔ b.Proper := by
  refine ⟨proper_of_ofCorners, fun ⟨hmin, hmax, hx, hy⟩ => if_neg ?_⟩
  have hmin := point_isFinite_iff.mpr hmin
  have hmax := point_isFinite_iff.mpr hmax
  have hx : ¬b.max.x ≤ b.min.x := fun hle => not_lt_self _ (lt_le_trans hx hle)
  have hy : ¬b.max.y ≤ b.min.y := fun hle => not_lt_self _ (lt_le_trans hy hle)
  simp [hmin, hmax, hx, hy]

/-! ## 3. Sides with room -/

/-- A side that can be scaled without regard to rounding: its ends and the scaled ones are within
half of the range, its length is not too small to be halved, and the reach is neither too small nor
small compared to the distance of the middle from the origin. -/
structure Roomy (low high factor : ℚ) : Prop where
  range : |low| ≤ 2 ^ (1022 : ℤ) ∧ |high| ≤ 2 ^ (1022 : ℤ)
  scaled_range : |(low + high) / 2| + (high - low) / 2 * factor ≤ 2 ^ (1022 : ℤ)
  least_length : 2 ^ (-1022 : ℤ) ≤ (high - low) / 2
  least_reach : 2 ^ (-1022 : ℤ) ≤ (high - low) / 2 * factor
  reach_middle : 2 ^ (-50 : ℤ) * |(low + high) / 2| ≤ (high - low) / 2 * factor

theorem two_mul_two_pow_1022 : 2 * (2 : ℚ) ^ (1022 : ℤ) = 2 ^ (1023 : ℤ) :=
  (zpow_one_add₀ two_ne_zero 1022).symm

/-- Half of the length of a side that is not tiny is off by two roundings. -/
theorem abs_half_length_sub_le {low high : Float} (flength : (high - low).isFinite = true)
    (hleast : 2 ^ (-1022 : ℤ) ≤ (toRat high - toRat low) / 2) :
    |toRat (0.5 * (high - low)) - (toRat high - toRat low) / 2| ≤
      2 * 2 ^ (-53 : ℤ) * ((toRat high - toRat low) / 2) := by
  have hlength := abs_toRat_sub_sub_le flength
  have hhalf := abs_toRat_half_mul_sub_le flength
  have hpos : (0 : ℚ) < 2 ^ (-1022 : ℤ) := by positivity
  rw [abs_of_pos (by linarith : 0 < toRat high - toRat low)] at hlength
  rw [two_pow_neg_1075] at hhalf
  have hpart := mul_le_mul_of_nonneg_left hleast (by positivity : (0 : ℚ) ≤ 2 ^ (-53 : ℤ))
  generalize (2 : ℚ) ^ (-53 : ℤ) * 2 ^ (-1022 : ℤ) = ε at hhalf hpart
  generalize (2 : ℚ) ^ (-53 : ℤ) = u at hlength hpart ⊢
  rw [abs_le] at hlength hhalf ⊢
  constructor <;> linarith

section Room

variable {low high factor : Float} (flow : low.isFinite = true) (fhigh : high.isFinite = true)

include flow fhigh

/-- The middle of a side within half of the range, with its error. -/
theorem abs_middle_le (hrange : |toRat low| ≤ 2 ^ (1022 : ℤ) ∧ |toRat high| ≤ 2 ^ (1022 : ℤ)) :
    (middle low high).isFinite = true ∧
      |toRat (middle low high)| ≤
        (1 + 2 ^ (-53 : ℤ)) * |(toRat low + toRat high) / 2| + 2 ^ (-1075 : ℤ) := by
  have hsum : |toRat low + toRat high| ≤ 2 ^ (1023 : ℤ) := by
    rw [← two_mul_two_pow_1022, two_mul]
    exact (abs_add_le _ _).trans (add_le_add hrange.1 hrange.2)
  obtain ⟨fsum, -⟩ := (roundsTo_add flow fhigh).bounded_two_pow (by norm_num) le_rfl hsum
  have herror := abs_toRat_add_sub_le fsum
  have hhalf := abs_toRat_half_mul_sub_le fsum
  refine ⟨isFinite_half_mul fsum, ?_⟩
  rw [← middle] at hhalf
  rw [abs_div, abs_two]
  generalize toRat (low + high) = s at herror hhalf
  generalize (2 : ℚ) ^ (-1075 : ℤ) = ε at hhalf ⊢
  generalize (2 : ℚ) ^ (-53 : ℤ) = u at herror ⊢
  have hs : |s| ≤ |toRat low + toRat high| + u * |toRat low + toRat high| := by
    linarith [abs_sub_abs_le_abs_sub s (toRat low + toRat high)]
  have hmiddle : |toRat (middle low high)| ≤ |s / 2| + ε := by
    linarith [abs_sub_abs_le_abs_sub (toRat (middle low high)) (s / 2)]
  rw [abs_div, abs_two] at hmiddle
  linarith

/-- The reach of a side with room, with its error. -/
theorem abs_reach_sub_le (hfactor : Scales factor)
    (h : Roomy (toRat low) (toRat high) (toRat factor)) :
    let r := (toRat high - toRat low) / 2 * toRat factor
    (reach low high factor).isFinite = true ∧
      |toRat (reach low high factor) - r| ≤ 5 * 2 ^ (-53 : ℤ) * r := by
  intro r
  obtain ⟨ffactor, hpos⟩ := hfactor
  rw [lt_iff_toRat rfl ffactor, toRat_zero] at hpos
  have hr : 0 < r := (by positivity : (0 : ℚ) < 2 ^ (-1022 : ℤ)).trans_le h.least_reach
  have hu0 : (0 : ℚ) ≤ 2 ^ (-53 : ℤ) := by positivity
  have hdifference : |toRat high - toRat low| ≤ 2 ^ (1023 : ℤ) := by
    rw [← two_mul_two_pow_1022, two_mul]
    exact (abs_sub _ _).trans (add_le_add h.range.2 h.range.1)
  obtain ⟨flength, -⟩ := (roundsTo_sub fhigh flow).bounded_two_pow (by norm_num) le_rfl hdifference
  have hproduct : |toRat (0.5 * (high - low)) * toRat factor - r| ≤ 2 * 2 ^ (-53 : ℤ) * r := by
    rw [← sub_mul, abs_mul, abs_of_pos hpos, ← mul_assoc]
    exact mul_le_mul_of_nonneg_right (abs_half_length_sub_le flength h.least_length) hpos.le
  have hsmall : |toRat (0.5 * (high - low)) * toRat factor| ≤ 2 * r := by
    have hle := mul_le_mul_of_nonneg_right two_pow_neg_53_le hr.le
    linarith [abs_sub_abs_le_abs_sub (toRat (0.5 * (high - low)) * toRat factor) r, abs_of_pos hr]
  have hrange : 2 * r ≤ 2 ^ (1023 : ℤ) := by
    rw [← two_mul_two_pow_1022]
    exact mul_le_mul_of_nonneg_left ((le_add_of_nonneg_left (abs_nonneg _)).trans h.scaled_range)
      two_pos.le
  have hround := roundsTo_mul (isFinite_half_mul flength) ffactor
  obtain ⟨freach, -⟩ := hround.bounded_two_pow (by norm_num) le_rfl (hsmall.trans hrange)
  refine ⟨freach, ?_⟩
  have herror := abs_rounded_sub_le (toRat (0.5 * (high - low)) * toRat factor)
  rw [← hround.toRat_eq freach, ← reach, two_pow_neg_1075] at herror
  have hrelative := mul_le_mul_of_nonneg_left hsmall hu0
  have habsolute := mul_le_mul_of_nonneg_left h.least_reach hu0
  calc |toRat (reach low high factor) - r| ≤
        |toRat (reach low high factor) - toRat (0.5 * (high - low)) * toRat factor| +
          |toRat (0.5 * (high - low)) * toRat factor - r| := abs_sub_le _ _ _
    _ ≤ 2 ^ (-53 : ℤ) * (2 * r) + 2 ^ (-53 : ℤ) * r + 2 * 2 ^ (-53 : ℤ) * r :=
        add_le_add (herror.trans (add_le_add hrelative habsolute)) hproduct
    _ = 5 * 2 ^ (-53 : ℤ) * r := by ring

end Room

section Ends

variable {middle reach c r u ε : ℚ} (hu : 0 < u) (hu8 : u ≤ 1 / 8) (hr : 0 < r) (hε : 0 < ε)
  (hleast : ε ≤ u * r) (hmiddle : |middle| ≤ (1 + u) * c + ε) (hreach : |reach - r| ≤ 5 * u * r)

include hu8 hr hleast hmiddle hreach

/-- Rounded middle and reach are at most twice as large as the exact ones. -/
theorem abs_ends_le (hc : 0 ≤ c) : |middle| + |reach| ≤ 2 * (c + r) := by
  have huc := mul_le_mul_of_nonneg_right hu8 hc
  have hur := mul_le_mul_of_nonneg_right hu8 hr.le
  linarith [abs_sub_abs_le_abs_sub reach r, abs_of_pos hr]

include hu hε

/-- Rounding the upper end does not take back the reach: it takes at most a unit of the last place
of the middle and one of the reach. -/
theorem middle_lt_upper {upper : ℚ} (hc : 0 ≤ c) (hnear : 8 * u * c ≤ r)
    (herror : |upper - (middle + reach)| ≤ u * |middle + reach|) : middle < upper := by
  have hur := mul_le_mul_of_nonneg_right hu8 hr.le
  have hpos : 0 < reach := by linarith [(abs_le.mp hreach).1]
  have hsum := abs_add_le middle reach
  rw [abs_of_pos hpos] at hsum
  have herror_le := mul_le_mul_of_nonneg_left hsum hu.le
  have hmiddle_part := mul_le_mul_of_nonneg_left hmiddle hu.le
  have hreach_part := mul_le_mul_of_nonneg_right hu8 hpos.le
  have huc := mul_le_mul_of_nonneg_right hu8 (mul_nonneg hu.le hc)
  have huε := mul_le_mul_of_nonneg_right hu8 hε.le
  linarith [(abs_le.mp herror).1, (abs_le.mp hreach).1]

end Ends

/-- **A side with room is kept.** -/
theorem Roomy.keeps {low high factor : Float} (flow : low.isFinite = true)
    (fhigh : high.isFinite = true) (hfactor : Scales factor)
    (h : Roomy (toRat low) (toRat high) (toRat factor)) : Keeps low high factor := by
  obtain ⟨fmiddle, hmiddle⟩ := abs_middle_le flow fhigh h.range
  obtain ⟨freach, hreach⟩ := abs_reach_sub_le flow fhigh hfactor h
  have hu : (0 : ℚ) < 2 ^ (-53 : ℤ) := by positivity
  have hε : (0 : ℚ) < 2 ^ (-1075 : ℤ) := by positivity
  have hr : 0 < (toRat high - toRat low) / 2 * toRat factor :=
    lt_of_lt_of_le (by positivity) h.least_reach
  have hc := abs_nonneg ((toRat low + toRat high) / 2)
  have hleast := mul_le_mul_of_nonneg_left h.least_reach hu.le
  rw [← two_pow_neg_1075] at hleast
  have hupper : |toRat (middle low high)| + |toRat (reach low high factor)| ≤ 2 ^ (1023 : ℤ) := by
    rw [← two_mul_two_pow_1022]
    exact (abs_ends_le two_pow_neg_53_le hr hleast hmiddle hreach hc).trans
      (mul_le_mul_of_nonneg_left h.scaled_range two_pos.le)
  have fends (v : ℚ) (hv : |v| ≤ |toRat (middle low high)| + |toRat (reach low high factor)|)
      {x : Float} (hx : RoundsTo x v) : x.isFinite = true :=
    (hx.bounded_two_pow (by norm_num) le_rfl (hv.trans hupper)).1
  have fup := fends _ (abs_add_le _ _) (roundsTo_add fmiddle freach)
  refine ⟨fends _ (abs_sub _ _) (roundsTo_sub fmiddle freach), fup, Or.inr ?_⟩
  rw [lt_iff_toRat fmiddle fup]
  refine middle_lt_upper hu two_pow_neg_53_le hr hε hleast hmiddle hreach hc ?_
    (abs_toRat_add_sub_le fup)
  have height : (2 : ℚ) ^ (-50 : ℤ) = 8 * 2 ^ (-53 : ℤ) := by norm_num
  rw [← height]
  exact h.reach_middle

/-- Both sides of the rectangle have room for the factor. -/
def HasRoom (b : Bounds Float) (factor : Float) : Prop :=
  Roomy (toRat b.min.x) (toRat b.max.x) (toRat factor) ∧
    Roomy (toRat b.min.y) (toRat b.max.y) (toRat factor)

/-- A proper rectangle with room is kept. -/
theorem Proper.keptBy {b : Bounds Float} {factor : Float} (hb : b.Proper)
    (h : Scales factor → b.HasRoom factor) : b.KeptBy factor := fun hfactor =>
  ⟨(h hfactor).1.keeps hb.min.1 hb.max.1 hfactor, (h hfactor).2.keeps hb.min.2 hb.max.2 hfactor⟩

/-- A chain of factors for which there always is room leaves a rectangle proper. -/
theorem foldl_scaled_proper_of_room : ∀ (factors : List Float) (b : Bounds Float), b.Proper →
    (∀ before factor after, factors = before ++ factor :: after → Scales factor →
      (before.foldl scaled b).HasRoom factor) →
    (factors.foldl scaled b).Proper
  | [], _, hb, _ => hb
  | first :: factors, b, hb, hroom => by
    have hkept : b.KeptBy first := hb.keptBy (hroom [] first factors rfl)
    refine foldl_scaled_proper_of_room factors (b.scaled first)
      ((scaled_proper_iff b first).mpr ⟨hb, hkept⟩) fun before factor after hsplit => ?_
    exact hroom (first :: before) factor after (by rw [hsplit, List.cons_append])

/-! ## 4. Chains from accepted corners -/

/-- **Which chains of factors keep a rectangle.**

Let a rectangle be made from accepted corners and scaled by any factors, one after the other.  The
result is proper, which is what the corners of a new rectangle have to be, exactly if every factor
of the chain is one that does not scale, or one for which both sides of the rectangle that it meets
keep their ends finite and at least one end away from the middle.  Every factor for which the exact
sides have room is of this kind. -/
theorem scaled_chain_proper_iff {min max : Point Float} {b : Bounds Float}
    (h : ofCorners min max = .ok b) (factors : List Float) :
    let result := factors.foldl scaled b
    (ofCorners result.min result.max = .ok result ↔ result.Proper) ∧
    (result.Proper ↔ ∀ before factor after, factors = before ++ factor :: after →
      (before.foldl scaled b).KeptBy factor) ∧
    ((∀ before factor after, factors = before ++ factor :: after → Scales factor →
        (before.foldl scaled b).HasRoom factor) → result.Proper) :=
  have hb := proper_of_ofCorners h
  ⟨ofCorners_eq_ok_iff, (foldl_scaled_proper_iff factors b).trans (and_iff_right hb),
    foldl_scaled_proper_of_room factors b hb⟩

/-- The displayed square, made larger, then smaller, then left alone. -/
theorem proper_after_three_factors :
    let result : Bounds Float := [3.0, 0.5, -1.0].foldl scaled domain
    ofCorners result.min result.max = .ok result ∧ result.max = ⟨75.0, 75.0⟩ := by
  have haccepted : ofCorners domain.min domain.max = .ok (domain : Bounds Float) := by
    decide +kernel
  obtain ⟨haccept, hproper, -⟩ := scaled_chain_proper_iff haccepted [3.0, 0.5, -1.0]
  refine ⟨haccept.mpr (hproper.mpr fun before factor after hsplit => ?_), by decide +kernel⟩
  rcases List.cons_eq_append_iff.mp hsplit with ⟨rfl, hfirst⟩ | ⟨rest, rfl, hrest⟩
  · cases hfirst
    decide +kernel
  rcases List.cons_eq_append_iff.mp hrest with ⟨rfl, hsecond⟩ | ⟨last, rfl, hlast⟩
  · cases hsecond
    decide +kernel
  rcases List.cons_eq_append_iff.mp hlast with ⟨rfl, hthird⟩ | ⟨none, rfl, hnone⟩
  · cases hthird
    decide +kernel
  · cases none <;> cases hnone

/-- The rectangle that reaches from `2 ^ 53` to the next number in both coordinates. -/
def farSquare : Bounds Float :=
  ⟨⟨9007199254740992.0, 9007199254740992.0⟩, ⟨9007199254740994.0, 9007199254740994.0⟩⟩

/-- **Three rectangles with accepted corners that scaling spoils.**  The rectangle of all finite
points, made half as large, has infinite corners, because its sides are longer than any number.  A
rectangle far from the origin with sides of length 2, made a quarter as large, is a single point.
The displayed square, scaled by `2 ^ 1020`, leads out of range. -/
theorem scaled_not_proper :
    (ofCorners Session.wholePlane.min Session.wholePlane.max = .ok Session.wholePlane ∧
      (Session.wholePlane.scaled 0.5).min.isFinite = false ∧
      (Session.wholePlane.scaled 0.5).max.isFinite = false) ∧
    (ofCorners farSquare.min farSquare.max = .ok farSquare ∧
      (farSquare.scaled 0.25).min = (farSquare.scaled 0.25).max) ∧
    (ofCorners domain.min domain.max = .ok (domain : Bounds Float) ∧
      (domain.scaled (Float.ofBits 0x7fb0000000000000)).min.isFinite = false) := by
  decide +kernel

end Bounds

end Downhill

import Downhill.Proofs.Binary64.Words
import Downhill.Proofs.Sampling.Drawable

/-! # Numbers drawn from a range

A word gives a number `u · scale + low` of a closed range.  Rounding could carry it past the upper
end, but does not: the scale is lowered until the number of the largest word does not exceed that
end (`fitScale_keeps`), rounding keeps the order, and so no other word's number exceeds it
(`number_between`).

The search for the scale ends because a scale of zero gives the lower end.  It starts from a
positive number, since the ends of the range differ, and each step goes down by one rank.
-/

namespace Downhill.Uniform

open Binary64

variable {low high s : Float}

/-! ## 1. The scale -/

/-- A scale with which no word's number leaves the range. -/
structure Keeps (low high s : Float) : Prop where
  isFinite : s.isFinite = true
  nonneg : 0 ≤ toRat s
  largest : ¬high < s * largestUnit + low

theorem largestUnit_isFinite : (largestUnit : Float).isFinite = true := (toRat_unitOfWord _).1

/-- With a scale of zero every word gives the lower end. -/
theorem keeps_zero (hlow : low.isFinite = true) (hhigh : high.isFinite = true) (h : low ≤ high)
    (hs : IsZero s) : Keeps low high s where
  isFinite := hs.isFinite
  nonneg := hs.toRat_eq.ge
  largest := by
    have hzero : IsZero (s * largestUnit) := hs.mul largestUnit_isFinite
    have hround := roundsTo_add hzero.isFinite hlow
    rw [le_iff_toRat hlow hhigh] at h
    have hle : s * largestUnit + low ≤ high :=
      hround.le (roundsTo_self hhigh) (by rw [hzero.toRat_eq, zero_add]; exact h)
    exact (not_lt_iff_le (defined_of_le hle).2 (defined_of_le hle).1).mpr hle

/-- **The search for a scale ends with one that keeps the range**, if it is given as many steps as
the rank of the scale it starts from.  By induction on the steps: where a scale does not keep the
range, it is not zero, and the next one has a rank less by one. -/
theorem fitScale_keeps (hlow : low.isFinite = true) (hhigh : high.isFinite = true)
    (h : low ≤ high) :
    ∀ {fuel : Nat} {s : Float}, rank s ≤ fuel → rank s < infinityRank →
      Keeps low high (fitScale low high fuel s)
  | 0, s, hfuel, _ => keeps_zero hlow hhigh h (isZero_of_rank (Nat.le_zero.mp hfuel))
  | fuel + 1, s, hfuel, hrank => by
    unfold fitScale
    split_ifs with hexceeds
    · have hpos : 0 < rank s := by
        refine Nat.pos_of_ne_zero fun hzero => ?_
        exact (keeps_zero hlow hhigh h (isZero_of_rank hzero)).largest hexceeds
      have hnext : rank (below s) = rank s - 1 := rank_below hpos hrank
      exact fitScale_keeps hlow hhigh h (s := below s) (by omega) (by omega)
    · exact ⟨(isFinite_of_rank hrank).1, (isFinite_of_rank hrank).2, hexceeds⟩

/-- The largest number of a word lies between zero and one. -/
theorem largestUnit_bounds :
    0 < toRat (largestUnit : Float) ∧ toRat (largestUnit : Float) < 1 := by
  have hlower : (0.0 : Float) < largestUnit := by decide +kernel
  have hupper : (largestUnit : Float) < 1.0 := unitOfWord_lt_one _
  rw [lt_iff_toRat rfl largestUnit_isFinite, toRat_zero] at hlower
  rw [lt_iff_toRat largestUnit_isFinite rfl, toRat_one] at hupper
  exact ⟨hlower, hupper⟩

/-- The scale that the search starts from is positive. -/
theorem widest_pos (hlow : low.isFinite = true) (hhigh : high.isFinite = true) (h : low < high)
    (hfits : Fits low high) : 0 < toRat ((high - low) / largestUnit) := by
  have hwidth : (high - low).isFinite = true := finite_of_div hfits
  have hpos : 0 < toRat (high - low) := by
    have hsub := zero_lt_sub hlow hhigh h
    rwa [lt_iff_toRat rfl hwidth, toRat_zero] at hsub
  obtain ⟨hlower, hupper⟩ := largestUnit_bounds
  have hround := roundsTo_div hwidth largestUnit_isFinite hlower.ne'
  have hle : high - low ≤ (high - low) / largestUnit :=
    (roundsTo_self hwidth).le hround (le_div_self hpos.le hlower hupper.le)
  rw [le_iff_toRat hwidth hfits] at hle
  exact hpos.trans_le hle

/-- **A range whose width fits has a scale that keeps it.** -/
theorem scale_keeps (hlow : low.isFinite = true) (hhigh : high.isFinite = true) (h : low < high)
    (hfits : Fits low high) : ∃ s, scale low high = .ok s ∧ Keeps low high s := by
  have hle := le_of_lt h
  have hscale : scale low high = .ok (fitScale low high
      (rank ((high - low) / largestUnit)) ((high - low) / largestUnit)) := by
    unfold scale
    rw [if_pos hle]
    exact if_pos hfits
  exact ⟨_, hscale, fitScale_keeps hlow hhigh hle le_rfl
    (rank_lt_of_pos hfits (widest_pos hlow hhigh h hfits))⟩

/-! ## 2. The number of a word -/

/-- The number that a word gives in a closed range. -/
def number (low high : Float) (w : UInt64) : Except InvalidRange Float := do
  let s ← scale low high
  return unitOfWord w * s + low

/-- A draw from a range is the number of the next word. -/
theorem drawBetween_eq {γ : Type} [WordSource γ] (source : γ) :
    drawBetween low high source =
      (number low high (WordSource.next source).1).map (·, (WordSource.next source).2) := by
  unfold drawBetween number
  cases scale low high <;> rfl

/-- No word's product with the scale is negative or greater than that of the largest number. -/
theorem Keeps.product (hs : Keeps low high s) (w : UInt64) :
    ((unitOfWord w * s).isFinite = true ∧ 0 ≤ toRat (unitOfWord w * s)) ∧
      (s * largestUnit).isFinite = true ∧
        toRat (unitOfWord w * s) ≤ toRat (s * largestUnit) := by
  obtain ⟨hfinite, -⟩ := toRat_unitOfWord w
  have hround := roundsTo_mul hfinite hs.isFinite
  have hlargest := roundsTo_mul hs.isFinite largestUnit_isFinite
  have hbound : (s * largestUnit).isFinite = true :=
    isFinite_mul_of_le_one hs.isFinite largestUnit_isFinite largestUnit_bounds.1.le
      largestUnit_bounds.2.le
  have hnonneg : 0.0 ≤ unitOfWord w * s := by
    refine (roundsTo_self rfl).le hround ?_
    rw [toRat_zero]
    exact mul_nonneg (toRat_unitOfWord_nonneg w) hs.nonneg
  have hle : unitOfWord w * s ≤ s * largestUnit := by
    refine hround.le hlargest ?_
    rw [mul_comm]
    exact mul_le_mul_of_nonneg_left (toRat_unitOfWord_le w) hs.nonneg
  have hproduct : (unitOfWord w * s).isFinite = true := finite_of_between rfl hbound hnonneg hle
  rw [le_iff_toRat rfl hproduct, toRat_zero] at hnonneg
  rw [le_iff_toRat hproduct hbound] at hle
  exact ⟨⟨hproduct, hnonneg⟩, hbound, hle⟩

/-- **The number of every word lies in the range.** -/
theorem number_between (hlow : low.isFinite = true) (hhigh : high.isFinite = true) (h : low < high)
    (hfits : Fits low high) (w : UInt64) :
    ∃ x, number low high w = .ok x ∧ low ≤ x ∧ x ≤ high := by
  obtain ⟨s, hs, hkeeps⟩ := scale_keeps hlow hhigh h hfits
  obtain ⟨⟨hproduct, hnonneg⟩, hbound, hle⟩ := hkeeps.product w
  have hround := roundsTo_add hproduct hlow
  have hlargest := roundsTo_add hbound hlow
  refine ⟨unitOfWord w * s + low, by rw [number, hs]; rfl, ?_, ?_⟩
  · exact (roundsTo_self hlow).le hround (le_add_of_nonneg_left hnonneg)
  · have hupper : s * largestUnit + low ≤ high :=
      (not_lt_iff_le (defined_of_finite hhigh) hlargest.isNaN).mp hkeeps.largest
    exact le_le_trans (hround.le hlargest (add_le_add_left hle _)) hupper

end Downhill.Uniform

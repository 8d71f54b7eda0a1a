import Downhill.Proofs.Binary64.Encoding

/-! # Operations round once

Addition, subtraction, multiplication and division of finite machine numbers form the exact result
as an integer with an exponent, drop bits from its end until 53 are left, and keep two residual
bits of what was dropped: whether it was at least half a unit, and whether there was anything
besides that half.

* `Brackets`: what the residual bits say about the number that was cut off.  Dropping one more bit
  keeps it true (`Brackets.shiftRightOne`), and it is all that rounding to the nearest integer has
  to know (`Brackets.roundedMantissa`).
* `IsRounded`: a decoded form is the rounding of an exact number.
* `isRounded_add`, `isRounded_sub`, `isRounded_mul`, `isRounded_div`: the four operations give
  the rounding of the exact result.
-/

namespace Downhill.Binary64

open Float.Model (Format UnpackedFloat totalExponent)
open Float.Model.UnpackedFloat

/-! ## 1. Residual bits -/

/-- The mantissa is the integer part of `x`, and the two bits tell the fraction from zero, from one
half and from what lies between and beyond them. -/
structure Brackets (em : ExtendedMantissa) (x : ℚ) : Prop where
  floor : ⌊x⌋ = em.mantissa
  round : em.roundBit = true ↔ 1 / 2 ≤ Int.fract x
  sticky : em.stickyBit = true ↔ Int.fract x ≠ 0 ∧ Int.fract x ≠ 1 / 2

theorem brackets_exact (m : Nat) : Brackets (.ofMantissaAndAccuracy m .exact) m where
  floor := Int.floor_natCast m
  round := by simp [ExtendedMantissa.ofMantissaAndAccuracy]
  sticky := by simp [ExtendedMantissa.ofMantissaAndAccuracy]

/-- The residual bits of a quotient, by its rest `r` and the divisor `n`. -/
theorem ofMantissaAndAccuracy_fraction (q r : Nat) {n : Nat} (hn : 0 < n) :
    ExtendedMantissa.ofMantissaAndAccuracy q (accuracyOfFraction r n) =
      ⟨q, decide (n ≤ 2 * r), decide (r ≠ 0 ∧ 2 * r ≠ n)⟩ := by
  unfold accuracyOfFraction
  split_ifs with h0
  · simp [ExtendedMantissa.ofMantissaAndAccuracy, h0, hn.ne']
  · rcases lt_trichotomy (2 * r) n with h | h | h
    · rw [Nat.compare_eq_lt.mpr h]
      simp [ExtendedMantissa.ofMantissaAndAccuracy, h0, h, h.ne]
    · rw [Nat.compare_eq_eq.mpr h]
      simp [ExtendedMantissa.ofMantissaAndAccuracy, h]
    · rw [Nat.compare_eq_gt.mpr h]
      simp [ExtendedMantissa.ofMantissaAndAccuracy, h0, h.le, h.ne']

/-- An integer division knows of its quotient whether the rest is zero and how twice the rest
compares to the divisor. -/
theorem brackets_fraction (m : Nat) {n : Nat} (hn : 0 < n) :
    Brackets (.ofMantissaAndAccuracy (m / n) (accuracyOfFraction (m % n) n)) (m / n) := by
  have hn' : (0 : ℚ) < n := by exact_mod_cast hn
  have hfract : Int.fract (m / n : ℚ) = (m % n : Nat) / n :=
    Int.fract_div_natCast_eq_div_natCast_mod
  rw [ofMantissaAndAccuracy_fraction _ _ hn]
  refine ⟨Rat.floor_intCast_div_natCast m n, ?_, ?_⟩
  · rw [hfract, decide_eq_true_iff, div_le_div_iff₀ two_pos hn']
    norm_cast
    omega
  · rw [hfract, decide_eq_true_iff, ne_eq _ (1 / 2 : ℚ), div_eq_div_iff hn'.ne' two_ne_zero]
    norm_cast
    simp [hn.ne', mul_comm 2]

theorem floor_half (x : ℚ) : ⌊x / 2⌋ = ⌊x⌋ / 2 := by
  exact_mod_cast Int.floor_div_natCast x 2

/-- Half of a number has as its fraction half of the parity and the fraction of the number. -/
theorem fract_half (x : ℚ) : Int.fract (x / 2) = ((⌊x⌋ % 2 : ℤ) + Int.fract x) / 2 := by
  have hx := Int.floor_add_fract x
  have hparity : (⌊x⌋ : ℚ) = 2 * (⌊x⌋ / 2 : ℤ) + (⌊x⌋ % 2 : ℤ) := by
    exact_mod_cast (Int.mul_ediv_add_emod ⌊x⌋ 2).symm
  rw [Int.fract, floor_half]
  linarith

theorem Brackets.shiftRightOne {em : ExtendedMantissa} {x : ℚ} (h : Brackets em x) :
    Brackets em.shiftRightOne (x / 2) := by
  have hlo := Int.fract_nonneg x
  have hhi := Int.fract_lt_one x
  have hany : (em.roundBit || em.stickyBit) = true ↔ Int.fract x ≠ 0 := by
    rw [Bool.or_eq_true, h.round, h.sticky]
    constructor
    · rintro (hr | hs) h0
      · linarith
      · exact hs.1 h0
    · intro h0
      rcases le_or_gt (1 / 2) (Int.fract x) with hr | hr
      · exact Or.inl hr
      · exact Or.inr ⟨h0, hr.ne⟩
  have hodd : ⌊x⌋ % 2 = (em.mantissa % 2 : Nat) := by rw [h.floor]; rfl
  refine ⟨?_, ?_, ?_⟩
  · rw [floor_half, h.floor]; rfl
  · rw [fract_half, hodd]
    rcases Nat.mod_two_eq_zero_or_one em.mantissa with hm | hm
    · simp [ExtendedMantissa.shiftRightOne, hm]; linarith
    · simp [ExtendedMantissa.shiftRightOne, hm]; linarith
  · rw [fract_half, hodd]
    change (em.roundBit || em.stickyBit) = true ↔ _
    rw [hany, ← not_iff_not]
    rcases Nat.mod_two_eq_zero_or_one em.mantissa with hm | hm
    · rw [hm]
      grind
    · rw [hm]
      grind

theorem Brackets.shiftRight {em : ExtendedMantissa} {x : ℚ} (h : Brackets em x) (n : Nat) :
    Brackets (em >>> n) (x / 2 ^ n) := by
  change Brackets (n.repeat ExtendedMantissa.shiftRightOne em) _
  induction n with
  | zero => simpa [Nat.repeat] using h
  | succ n ih =>
    rw [Nat.repeat, pow_succ, ← div_div]
    exact ih.shiftRightOne

/-- **The residual bits are all that rounding needs.** -/
theorem Brackets.roundedMantissa {em : ExtendedMantissa} {x : ℚ} (h : Brackets em x) :
    (em.roundedMantissa : ℤ) = nearestEven x := by
  obtain ⟨m, r, t⟩ := em
  obtain ⟨hfloor, hr, ht⟩ := h
  simp only at hfloor hr ht
  cases r
  · have hlt : Int.fract x < 1 / 2 := by simpa using hr
    rw [nearestEven_of_lt hlt, hfloor]
    cases t <;> rfl
  · have hle : 1 / 2 ≤ Int.fract x := hr.mp rfl
    cases t
    · have heq : Int.fract x = 1 / 2 := by
        by_contra hne
        exact absurd (ht.mpr ⟨by linarith, hne⟩) (by decide)
      rw [nearestEven_of_eq heq, hfloor]
      rfl
    · have hgt : 1 / 2 < Int.fract x := lt_of_le_of_ne hle (ht.mp rfl).2.symm
      rw [nearestEven_of_gt hgt, hfloor]
      rfl

/-! ## 2. The exponent of the result -/

theorem targetExponent_eq (t : Int) :
    Format.binary64.targetExponent t = max (t - 53) (-1074) := rfl

/-- The exponent that 53 bits call for is that of the last place.  An integer part of zero does not
tell how many bits there are, and then the exponent must be small enough for it not to matter. -/
theorem targetExponent_eq_lastPlace {x : ℚ} {m : Nat} {e : Int} (hx : 0 < x) (hm : ⌊x⌋ = m)
    (he : m = 0 → e ≤ lastPlace (x * 2 ^ e)) :
    Format.binary64.targetExponent (totalExponent m e) = lastPlace (x * 2 ^ e) := by
  have hxe : 0 < x * 2 ^ e := by positivity
  obtain ⟨hlo, hhi⟩ := Int.floor_eq_iff.mp hm
  have hup : Int.log 2 (x * 2 ^ e) < m.log2 + 1 + e := by
    refine (Int.lt_zpow_iff_log_lt one_lt_two hxe).mp ?_
    have hlt : (m + 1 : ℚ) ≤ 2 ^ (m.log2 + 1) := by exact_mod_cast Nat.lt_log2_self
    push_cast at hlo hhi ⊢
    rw [zpow_add₀ two_ne_zero]
    exact mul_lt_mul_of_pos_right (by exact_mod_cast hhi.trans_le hlt) (by positivity)
  rw [targetExponent_eq, totalExponent]
  rcases Nat.eq_zero_or_pos m with rfl | hpos
  · -- less than one unit: the unit is then at most the least one
    have he := he rfl
    simp only [Nat.log2_zero, Nat.cast_zero] at hup ⊢
    unfold lastPlace at he ⊢
    omega
  · have hdown : m.log2 + e ≤ Int.log 2 (x * 2 ^ e) := by
      refine (Int.zpow_le_iff_le_log one_lt_two hxe).mp ?_
      have hle : (2 ^ m.log2 : ℚ) ≤ m := by exact_mod_cast Nat.log2_self_le hpos.ne'
      push_cast at hlo ⊢
      rw [zpow_add₀ two_ne_zero]
      exact mul_le_mul_of_nonneg_right (by exact_mod_cast hle.trans hlo) (by positivity)
    unfold lastPlace
    omega

/-! ## 3. One rounding -/

/-- A finite form in canonical shape whose value is `v` rounded. -/
structure IsRounded (v : ℚ) (u : UnpackedFloat) : Prop where
  canonical : Canonical u
  isFinite : u.isFinite = true
  value : exactValue u = rounded v

theorem rounded_signed (s : Sign) (v : ℚ) : rounded (signed s v) = signed s (rounded v) := by
  cases s
  · exact rounded_neg v
  · rfl

/-- The form with the sign `s`, the mantissa `m` and the exponent `e`, which is a zero where the
mantissa is. -/
def ofParts (s : Sign) (m : Nat) (e : Int) : UnpackedFloat :=
  if h : m = 0 then .zero s else .finite s m e (Nat.pos_of_ne_zero h)

theorem isFinite_ofParts (s : Sign) (m : Nat) (e : Int) : (ofParts s m e).isFinite = true := by
  unfold ofParts
  split <;> rfl

theorem exactValue_ofParts (s : Sign) (m : Nat) (e : Int) :
    exactValue (ofParts s m e) = signed s (m * 2 ^ e) := by
  unfold ofParts
  split_ifs with h
  · cases s <;> simp [exactValue, signed, h]
  · rfl

theorem canonical_ofParts (s : Sign) {m : Nat} {e : Int} (hm : m < 2 ^ 53) (he : -1074 ≤ e)
    (h : 2 ^ 52 ≤ m ∨ e = -1074) : Canonical (ofParts s m e) := by
  unfold ofParts
  split_ifs
  · trivial
  · exact ⟨hm, he, h⟩

/-- Rounding up may need one bit more; the mantissa is then a power of two, and nothing is lost
when its last bit is dropped. -/
theorem shiftToTargetExponent_exact {m : Nat} {e : Int} (hm : m ≤ 2 ^ 53) (he : -1074 ≤ e) :
    shiftToTargetExponent .binary64 m e .exact =
      if m = 2 ^ 53 then (⟨2 ^ 52, false, false⟩, e + 1) else (⟨m, false, false⟩, e) := by
  simp only [shiftToTargetExponent, shiftToExponent, targetExponent_eq, totalExponent]
  split_ifs with h
  · have hamount : (max ((m.log2 : Int) + 1 + e - 53) (-1074) - e).toNat = 1 := by
      rw [h, Nat.log2_two_pow]
      omega
    rw [hamount, h]
    rfl
  · have hamount : (max ((m.log2 : Int) + 1 + e - 53) (-1074) - e).toNat = 0 := by
      have := log2_lt_53 (lt_of_le_of_ne hm h)
      omega
    rw [hamount]
    simp [ExtendedMantissa.ofMantissaAndAccuracy, HShiftRight.hShiftRight, Nat.repeat]

theorem roundWithAccuracy_eq (s : Sign) (m : Nat) (e : Int) (acc : Accuracy) :
    roundWithAccuracy .binary64 s m e acc =
      let first := shiftToTargetExponent .binary64 m e acc
      let last := shiftToTargetExponent .binary64 first.1.roundedMantissa first.2 .exact
      ofParts s last.1.mantissa last.2 := rfl

/-- Rounding gives a finite form; only encoding makes it infinite. -/
theorem isFinite_roundWithAccuracy (s : Sign) (m : Nat) (e : Int) (acc : Accuracy) :
    (roundWithAccuracy .binary64 s m e acc).isFinite = true := by
  rw [roundWithAccuracy_eq]
  exact isFinite_ofParts s _ _

/-- The second shift of a rounding leaves the value as it is. -/
theorem isRounded_second_shift (s : Sign) {v : ℚ} (hv : 0 < v) {r : Nat}
    (hr : (r : ℤ) = nearestEven (v / 2 ^ lastPlace v)) :
    let last := shiftToTargetExponent .binary64 r (lastPlace v) .exact
    IsRounded (signed s v) (ofParts s last.1.mantissa last.2) := by
  have hvalue : rounded (signed s v) = signed s (r * 2 ^ lastPlace v) := by
    rw [rounded_signed, rounded_of_nonneg hv.le, roundedMagnitude, ← hr, Int.cast_natCast]
  have hle : r ≤ 2 ^ 53 := by exact_mod_cast hr.le.trans (nearestEven_lastPlace_le v)
  have hlow := neg_1074_le_lastPlace v
  simp only [shiftToTargetExponent_exact hle hlow]
  split_ifs with h
  · refine ⟨canonical_ofParts s (by norm_num) (by omega) (Or.inl le_rfl),
      isFinite_ofParts s _ _, ?_⟩
    rw [exactValue_ofParts, hvalue, h, zpow_add_one₀ two_ne_zero]
    push_cast
    ring_nf
  · have hnormal : 2 ^ 52 ≤ r ∨ lastPlace v = -1074 := by
      by_cases hlast : lastPlace v = -1074
      · exact Or.inr hlast
      · exact Or.inl (by exact_mod_cast (le_nearestEven_lastPlace hv hlast).trans hr.ge)
    refine ⟨canonical_ofParts s (lt_of_le_of_ne hle h) hlow hnormal, isFinite_ofParts s _ _, ?_⟩
    rw [exactValue_ofParts, hvalue]

/-- **An integer part with its residual bits is rounded as the number they were cut from.** -/
theorem isRounded_roundWithAccuracy (s : Sign) {x : ℚ} {m : Nat} {e : Int} {acc : Accuracy}
    (hx : 0 < x) (h : Brackets (.ofMantissaAndAccuracy m acc) x)
    (he : e ≤ lastPlace (x * 2 ^ e)) :
    IsRounded (signed s (x * 2 ^ e)) (roundWithAccuracy .binary64 s m e acc) := by
  have hm : ⌊x⌋ = m := by
    rw [h.floor]
    unfold ExtendedMantissa.ofMantissaAndAccuracy
    split <;> rfl
  have htarget := targetExponent_eq_lastPlace hx hm fun _ => he
  generalize hv : x * 2 ^ e = v at he htarget
  have hvpos : 0 < v := by rw [← hv]; positivity
  obtain ⟨k, hk⟩ := Int.eq_ofNat_of_zero_le (sub_nonneg.mpr he)
  have hfirst : shiftToTargetExponent .binary64 m e acc =
      (ExtendedMantissa.ofMantissaAndAccuracy m acc >>> k, lastPlace v) := by
    simp only [shiftToTargetExponent, shiftToExponent, htarget, hk, Int.toNat_natCast]
    rw [← hk, add_sub_cancel]
  have hshift : x / 2 ^ k = v / 2 ^ lastPlace v := by
    rw [← hv, ← zpow_natCast, ← hk, zpow_sub₀ two_ne_zero]
    field_simp
    rw [hv]
  have hround := (h.shiftRight k).roundedMantissa
  rw [hshift] at hround
  rw [roundWithAccuracy_eq, hfirst]
  exact isRounded_second_shift s hvpos hround

/-! ## 4. Integers with an exponent -/

/-- An integer with an exponent, made to reach down to its last place and rounded. -/
theorem isRounded_round (s : Sign) {m : Nat} (e : Int) (hm : 0 < m) :
    IsRounded (signed s (m * 2 ^ e)) (UnpackedFloat.round .binary64 s m e) := by
  have htarget : Format.binary64.targetExponent (totalExponent m e) = lastPlace (m * 2 ^ e) :=
    targetExponent_eq_lastPlace (by exact_mod_cast hm) (Int.floor_natCast m)
      fun h => absurd h hm.ne'
  simp only [UnpackedFloat.round, decreaseExponent, htarget]
  generalize hk : (e - lastPlace (m * 2 ^ e)).toNat = k
  have hvalue : (m * 2 ^ e : ℚ) = (m <<< k : Nat) * 2 ^ (e - k) := by
    rw [Nat.shiftLeft_eq, zpow_sub₀ two_ne_zero, zpow_natCast]
    push_cast
    field_simp
  have hlast : e - k ≤ lastPlace (m * 2 ^ e) := by omega
  rw [hvalue] at hlast ⊢
  refine isRounded_roundWithAccuracy s ?_ (brackets_exact _) hlast
  rw [Nat.shiftLeft_eq]
  positivity

theorem isRounded_zero (s : Sign) : IsRounded 0 (.zero s) where
  canonical := trivial
  isFinite := rfl
  value := rounded_zero.symm

/-- A signed integer with an exponent, rounded. -/
theorem isRounded_normalize (m : Int) (e : Int) (s : Sign) :
    IsRounded (m * 2 ^ e) (UnpackedFloat.normalize .binary64 m e s) := by
  unfold UnpackedFloat.normalize
  rcases lt_trichotomy m 0 with h | rfl | h
  · obtain ⟨n, hn⟩ := Int.eq_ofNat_of_zero_le (neg_nonneg.mpr h.le)
    obtain rfl : m = -n := by omega
    rw [Int.compare_eq_lt.mpr h]
    convert isRounded_round .negative e (m := n) (by omega) using 1
    · simp [signed]
    · simp
  · simpa using isRounded_zero s
  · obtain ⟨n, rfl⟩ := Int.eq_ofNat_of_zero_le h.le
    rw [Int.compare_eq_gt.mpr h]
    exact isRounded_round .positive e (by omega)

end Downhill.Binary64

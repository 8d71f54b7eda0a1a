import Downhill.Proofs.Binary64.Normalizing

/-! # The four operations on decoded forms

Each operation computes an exact integer with an exponent and rounds it once, so that its result on
finite operands is the exact result, rounded (`isRounded_add`, `isRounded_sub`, `isRounded_mul`,
`isRounded_div`).  The quotient is the one result that has no exact integer; its residual bits
come from the rest of the division.

Comparison looks at exponents first and at mantissas next.  On canonical forms that is the order of
the exact values (`compare_eq`).
-/

namespace Downhill.Binary64

open Float.Model (Format UnpackedFloat totalExponent)
open Float.Model.UnpackedFloat

/-! ## 1. Signs -/

theorem signed_mul (s t : Sign) (a b : ℚ) : signed (s * t) (a * b) = signed s a * signed t b := by
  cases s <;> cases t
  · exact (neg_mul_neg a b).symm
  · exact (neg_mul a b).symm
  · exact (mul_neg a b).symm
  · rfl

theorem signed_div (s t : Sign) (a b : ℚ) : signed (s / t) (a / b) = signed s a / signed t b := by
  cases s <;> cases t
  · exact (neg_div_neg_eq a b).symm
  · exact (neg_div b a).symm
  · exact (div_neg a).symm
  · rfl

theorem signed_neg (s : Sign) (a : ℚ) : signed (-s) a = -signed s a := by
  cases s
  · exact (neg_neg a).symm
  · rfl

theorem apply_eq_signed (s : Sign) (n : Nat) : (s.apply n : ℚ) = signed s n := by
  cases s <;> simp [Sign.apply, signed]

theorem signed_mul_right (s : Sign) (a b : ℚ) : signed s (a * b) = signed s a * b := by
  cases s
  · exact (neg_mul a b).symm
  · rfl

/-! ## 2. Forms that need no rounding -/

@[simp] theorem exactValue_zero (s : Sign) : exactValue (.zero s) = 0 := rfl

/-- A finite form is a zero or has a mantissa. -/
theorem finite_cases {u : UnpackedFloat} (h : u.isFinite = true) :
    (∃ s, u = .zero s) ∨ ∃ s m e hm, u = .finite s m e hm := by
  cases u with
  | infinity s => cases h
  | notANumber => cases h
  | zero s => exact Or.inl ⟨s, rfl⟩
  | finite s m e hm => exact Or.inr ⟨s, m, e, hm, rfl⟩

theorem onGrid_exactValue {u : UnpackedFloat} (h : Canonical u) : OnGrid (exactValue u) := by
  cases u with
  | finite s m e hm =>
    have hgrid : OnGrid (m * 2 ^ e) := ⟨m, e, by simpa using h.1, h.2.1, rfl⟩
    cases s
    · exact hgrid.neg
    · exact hgrid
  | _ => exact .zero

/-- A canonical form is its own rounding. -/
theorem isRounded_self {u : UnpackedFloat} (h : Canonical u) (hu : u.isFinite = true) :
    IsRounded (exactValue u) u where
  canonical := h
  isFinite := hu
  value := (rounded_of_onGrid (onGrid_exactValue h)).symm

theorem canonical_neg {u : UnpackedFloat} (h : Canonical u) : Canonical u.neg := by
  cases u <;> exact h

theorem canonical_abs {u : UnpackedFloat} (h : Canonical u) : Canonical u.abs := by
  cases u <;> exact h

theorem exactValue_neg (u : UnpackedFloat) : exactValue u.neg = -exactValue u := by
  cases u with
  | finite s m e hm => exact signed_neg s _
  | _ => exact neg_zero.symm

theorem exactValue_abs (u : UnpackedFloat) : exactValue u.abs = |exactValue u| := by
  cases u with
  | finite s m e hm =>
    have hpos : (0 : ℚ) ≤ m * 2 ^ e := by positivity
    cases s
    · exact ((abs_neg _).trans (abs_of_nonneg hpos)).symm
    · exact (abs_of_nonneg hpos).symm
  | _ => exact abs_zero.symm

/-! ## 3. Sum and difference -/

theorem decreaseExponent_fst (m : Nat) {e t : Int} (h : t ≤ e) :
    ((decreaseExponent m e t).1 : ℚ) * 2 ^ t = m * 2 ^ e := by
  obtain ⟨k, hk⟩ := Int.eq_ofNat_of_zero_le (sub_nonneg.mpr h)
  obtain rfl : e = t + k := by omega
  simp only [decreaseExponent, add_sub_cancel_left, Int.toNat_natCast, Nat.shiftLeft_eq]
  rw [zpow_add₀ two_ne_zero, zpow_natCast]
  push_cast
  ring

/-- A finite form as a signed integer beside a smaller exponent. -/
theorem exactValue_decreaseExponent (s : Sign) {m : Nat} {e t : Int} (hm : 0 < m) (h : t ≤ e) :
    exactValue (.finite s m e hm) = (s.apply (decreaseExponent m e t).1 : ℚ) * 2 ^ t := by
  rw [exactValue, apply_eq_signed, ← signed_mul_right, decreaseExponent_fst m h]

variable {u w : UnpackedFloat}

/-- **The sum of finite forms is the exact sum, rounded.** -/
theorem isRounded_add (hu : Canonical u) (hw : Canonical w) (fu : u.isFinite = true)
    (fw : w.isFinite = true) :
    IsRounded (exactValue u + exactValue w) (UnpackedFloat.add .binary64 u w) := by
  obtain ⟨s, rfl⟩ | ⟨s, m, e, hm, rfl⟩ := finite_cases fu <;>
    obtain ⟨t, rfl⟩ | ⟨t, n, k, hn, rfl⟩ := finite_cases fw
  · rw [exactValue_zero, exactValue_zero, add_zero, UnpackedFloat.add]
    split <;> exact isRounded_zero _
  · rw [exactValue_zero, zero_add]
    exact isRounded_self hw fw
  · rw [exactValue_zero, add_zero]
    exact isRounded_self hu fu
  · rw [exactValue_decreaseExponent s hm (min_le_left e k),
      exactValue_decreaseExponent t hn (min_le_right e k), ← add_mul, ← Int.cast_add]
    exact isRounded_normalize _ _ _

/-- **The difference of finite forms is the exact difference, rounded.** -/
theorem isRounded_sub (hu : Canonical u) (hw : Canonical w) (fu : u.isFinite = true)
    (fw : w.isFinite = true) :
    IsRounded (exactValue u - exactValue w) (UnpackedFloat.sub .binary64 u w) := by
  obtain ⟨s, rfl⟩ | ⟨s, m, e, hm, rfl⟩ := finite_cases fu <;>
    obtain ⟨t, rfl⟩ | ⟨t, n, k, hn, rfl⟩ := finite_cases fw
  · rw [exactValue_zero, exactValue_zero, sub_zero, UnpackedFloat.sub]
    split <;> exact isRounded_zero _
  · rw [exactValue_zero, zero_sub, ← exactValue_neg]
    exact isRounded_self (canonical_neg hw) rfl
  · rw [exactValue_zero, sub_zero]
    exact isRounded_self hu fu
  · rw [exactValue_decreaseExponent s hm (min_le_left e k),
      exactValue_decreaseExponent t hn (min_le_right e k), ← sub_mul, ← Int.cast_sub]
    exact isRounded_normalize _ _ _

/-! ## 4. Product and quotient -/

/-- A mantissa of 53 bits reaches down to the last place, and beside the least exponent any does. -/
theorem add_le_lastPlace {m n : Nat} {e k : Int} (hm : 0 < m) (hn : 0 < n)
    (hu : 2 ^ 52 ≤ m ∨ e = -1074) (hw : 2 ^ 52 ≤ n ∨ k = -1074) :
    e + k ≤ lastPlace ((m * n : Nat) * 2 ^ (e + k)) := by
  by_cases hsmall : e = -1074 ∧ k = -1074
  · have := neg_1074_le_lastPlace ((m * n : Nat) * 2 ^ (e + k))
    omega
  · have hprod : 2 ^ 52 ≤ m * n := by
      rcases hu with hu | hu
      · exact hu.trans (Nat.le_mul_of_pos_right m hn)
      · exact (hw.resolve_right fun h => hsmall ⟨hu, h⟩).trans (Nat.le_mul_of_pos_left n hm)
    have hlog : 52 + (e + k) ≤ Int.log 2 ((m * n : Nat) * 2 ^ (e + k) : ℚ) := by
      refine (Int.zpow_le_iff_le_log one_lt_two (by positivity)).mp ?_
      rw [Nat.cast_ofNat, zpow_add₀ two_ne_zero]
      exact mul_le_mul_of_nonneg_right (by exact_mod_cast hprod) (by positivity)
    unfold lastPlace
    omega

/-- **The product of finite forms is the exact product, rounded.** -/
theorem isRounded_mul (hu : Canonical u) (hw : Canonical w) (fu : u.isFinite = true)
    (fw : w.isFinite = true) :
    IsRounded (exactValue u * exactValue w) (UnpackedFloat.mul .binary64 u w) := by
  obtain ⟨s, rfl⟩ | ⟨s, m, e, hm, rfl⟩ := finite_cases fu <;>
    obtain ⟨t, rfl⟩ | ⟨t, n, k, hn, rfl⟩ := finite_cases fw
  · rw [exactValue_zero, zero_mul]
    exact isRounded_zero _
  · rw [exactValue_zero, zero_mul]
    exact isRounded_zero _
  · rw [exactValue_zero, mul_zero]
    exact isRounded_zero _
  · have hproduct : exactValue (.finite s m e hm) * exactValue (.finite t n k hn) =
        signed (s * t) ((m * n : Nat) * 2 ^ (e + k)) := by
      rw [exactValue, exactValue, ← signed_mul, zpow_add₀ two_ne_zero]
      push_cast
      ring_nf
    rw [hproduct]
    exact isRounded_roundWithAccuracy (s * t) (by positivity) (brackets_exact (m * n))
      (add_le_lastPlace hm hn hu.2.2 hw.2.2)

/-- The exponent that a division chooses reaches down to the last place of the quotient. -/
theorem le_lastPlace_quotient {m n : Nat} {e k : Int} (hm : 0 < m) (hn : 0 < n) :
    Format.binary64.targetExponent (totalExponent m e - totalExponent n k) ≤
      lastPlace (m / n * 2 ^ (e - k)) := by
  have hlog : m.log2 - n.log2 - 1 + (e - k) ≤ Int.log 2 (m / n * 2 ^ (e - k) : ℚ) := by
    refine (Int.zpow_le_iff_le_log one_lt_two (by positivity)).mp ?_
    have hlo : (2 ^ m.log2 : ℚ) ≤ m := by exact_mod_cast Nat.log2_self_le hm.ne'
    have hhi : (n : ℚ) ≤ 2 ^ (n.log2 + 1) := by exact_mod_cast Nat.lt_log2_self.le
    rw [Nat.cast_ofNat, zpow_add₀ two_ne_zero, sub_sub, zpow_sub₀ two_ne_zero]
    refine mul_le_mul_of_nonneg_right ?_ (by positivity)
    exact_mod_cast div_le_div₀ (by positivity) hlo (by positivity) hhi
  rw [targetExponent_eq, totalExponent, totalExponent]
  unfold lastPlace
  omega

/-- **The quotient of finite forms is the exact quotient, rounded**, unless the divisor is zero. -/
theorem isRounded_div (hw0 : exactValue w ≠ 0) (fu : u.isFinite = true) (fw : w.isFinite = true) :
    IsRounded (exactValue u / exactValue w) (UnpackedFloat.div .binary64 u w) := by
  obtain ⟨t, rfl⟩ | ⟨t, n, k, hn, rfl⟩ := finite_cases fw
  · exact absurd rfl hw0
  obtain ⟨s, rfl⟩ | ⟨s, m, e, hm, rfl⟩ := finite_cases fu
  · rw [exactValue_zero, zero_div]
    exact isRounded_zero _
  · have hlast := le_lastPlace_quotient (e := e) (k := k) hm hn
    simp only [UnpackedFloat.div, divCore]
    generalize hT : min (e - k)
      (Format.binary64.targetExponent (totalExponent m e - totalExponent n k)) = T
    generalize hj : (e - k - T).toNat = j
    have hvalue : (m / n * 2 ^ (e - k) : ℚ) = (m <<< j : Nat) / n * 2 ^ T := by
      have hexponent : e - k = j + T := by omega
      rw [hexponent, zpow_add₀ two_ne_zero, zpow_natCast, Nat.shiftLeft_eq]
      push_cast
      ring
    have hquotient : exactValue (.finite s m e hm) / exactValue (.finite t n k hn) =
        signed (s / t) ((m <<< j : Nat) / n * 2 ^ T) := by
      rw [exactValue, exactValue, ← signed_div, ← hvalue, zpow_sub₀ two_ne_zero, div_mul_div_comm]
    rw [hvalue] at hlast
    rw [hquotient]
    refine isRounded_roundWithAccuracy (s / t) ?_ (brackets_fraction (m <<< j) hn)
      (le_trans (by omega) hlast)
    rw [Nat.shiftLeft_eq]
    positivity

/-! ## 5. Infinite and undefined operands -/

theorem finite_operands_of_add (h : (UnpackedFloat.add .binary64 u w).isFinite = true) :
    u.isFinite = true ∧ w.isFinite = true := by
  cases u <;> cases w
  case infinity.infinity s t => cases s <;> cases t <;> cases h
  all_goals trivial

theorem finite_operands_of_sub (h : (UnpackedFloat.sub .binary64 u w).isFinite = true) :
    u.isFinite = true ∧ w.isFinite = true := by
  cases u <;> cases w
  case infinity.infinity s t => cases s <;> cases t <;> cases h
  all_goals trivial

theorem finite_operands_of_mul (h : (UnpackedFloat.mul .binary64 u w).isFinite = true) :
    u.isFinite = true ∧ w.isFinite = true := by
  cases u <;> cases w <;> trivial

theorem finite_dividend_of_div (h : (UnpackedFloat.div .binary64 u w).isFinite = true) :
    u.isFinite = true := by
  cases u <;> cases w <;> trivial

/-- Where finite results are roundings, all results are canonical: the others are so anyway. -/
theorem canonical_of_isRounded (h : u.isFinite = true → ∃ v, IsRounded v u) : Canonical u := by
  by_cases hu : u.isFinite = true
  · obtain ⟨v, hv⟩ := h hu
    exact hv.canonical
  · cases u
    case finite => exact absurd rfl hu
    all_goals trivial

theorem canonical_add (hu : Canonical u) (hw : Canonical w) :
    Canonical (UnpackedFloat.add .binary64 u w) := by
  refine canonical_of_isRounded fun h => ?_
  obtain ⟨fu, fw⟩ := finite_operands_of_add h
  exact ⟨_, isRounded_add hu hw fu fw⟩

theorem canonical_sub (hu : Canonical u) (hw : Canonical w) :
    Canonical (UnpackedFloat.sub .binary64 u w) := by
  refine canonical_of_isRounded fun h => ?_
  obtain ⟨fu, fw⟩ := finite_operands_of_sub h
  exact ⟨_, isRounded_sub hu hw fu fw⟩

theorem canonical_mul (hu : Canonical u) (hw : Canonical w) :
    Canonical (UnpackedFloat.mul .binary64 u w) := by
  refine canonical_of_isRounded fun h => ?_
  obtain ⟨fu, fw⟩ := finite_operands_of_mul h
  exact ⟨_, isRounded_mul hu hw fu fw⟩

theorem canonical_div (u w : UnpackedFloat) : Canonical (UnpackedFloat.div .binary64 u w) := by
  cases u <;> cases w
  case finite.finite s m e hm t n k hn =>
    have hpos : (n * 2 ^ k : ℚ) ≠ 0 := by positivity
    refine (isRounded_div ?_ rfl rfl).canonical
    cases t
    · exact neg_ne_zero.mpr hpos
    · exact hpos
  all_goals trivial

/-! ## 6. Order -/

/-- A canonical form with a smaller exponent has a smaller magnitude. -/
theorem magnitude_lt_of_exponent_lt {m n : Nat} {e k : Int} {hm : 0 < m} {hn : 0 < n}
    {s t : Sign} (hu : Canonical (.finite s m e hm)) (hw : Canonical (.finite t n k hn))
    (h : e < k) : (m * 2 ^ e : ℚ) < n * 2 ^ k := by
  have hbig : 2 ^ 52 ≤ n := hw.2.2.resolve_right fun hk => by have := hu.2.1; omega
  calc (m * 2 ^ e : ℚ) < 2 ^ 53 * 2 ^ e :=
        mul_lt_mul_of_pos_right (by exact_mod_cast hu.1) (by positivity)
    _ = 2 ^ 52 * 2 ^ (e + 1) := by rw [zpow_add_one₀ two_ne_zero]; ring
    _ ≤ 2 ^ 52 * 2 ^ k :=
        mul_le_mul_of_nonneg_left (zpow_le_zpow_right₀ one_le_two (by omega)) (by positivity)
    _ ≤ n * 2 ^ k := mul_le_mul_of_nonneg_right (by exact_mod_cast hbig) (by positivity)

/-- Exponents first, then mantissas: this orders the magnitudes. -/
theorem compare_magnitudes {m n : Nat} {e k : Int} {hm : 0 < m} {hn : 0 < n} {s t : Sign}
    (hu : Canonical (.finite s m e hm)) (hw : Canonical (.finite t n k hn)) :
    (compare e k).then (compare m n) = compare (m * 2 ^ e : ℚ) (n * 2 ^ k) := by
  rcases lt_trichotomy e k with h | rfl | h
  · rw [compare_lt_iff_lt.mpr h, compare_lt_iff_lt.mpr (magnitude_lt_of_exponent_lt hu hw h)]
    rfl
  · have hpow : (0 : ℚ) < 2 ^ e := by positivity
    rw [compare_eq_iff_eq.mpr rfl, Ordering.eq_then]
    rcases lt_trichotomy m n with h | rfl | h
    · rw [compare_lt_iff_lt.mpr h, compare_lt_iff_lt.mpr
        (mul_lt_mul_of_pos_right (by exact_mod_cast h) hpow)]
    · rw [compare_eq_iff_eq.mpr rfl, compare_eq_iff_eq.mpr rfl]
    · rw [compare_gt_iff_gt.mpr h, compare_gt_iff_gt.mpr
        (mul_lt_mul_of_pos_right (by exact_mod_cast h) hpow)]
  · rw [compare_gt_iff_gt.mpr h, compare_gt_iff_gt.mpr (magnitude_lt_of_exponent_lt hw hu h)]
    rfl

theorem compare_neg_neg (a b : ℚ) : compare (-a) (-b) = (compare a b).swap := by
  rcases lt_trichotomy a b with h | rfl | h
  · rw [compare_lt_iff_lt.mpr h, compare_gt_iff_gt.mpr (neg_lt_neg h)]
    rfl
  · rw [compare_eq_iff_eq.mpr rfl, compare_eq_iff_eq.mpr rfl]
    rfl
  · rw [compare_gt_iff_gt.mpr h, compare_lt_iff_lt.mpr (neg_lt_neg h)]
    rfl

/-- **Canonical forms are compared as their exact values are.** -/
theorem compare_eq (hu : Canonical u) (hw : Canonical w) (fu : u.isFinite = true)
    (fw : w.isFinite = true) :
    u.compare w = some (compare (exactValue u) (exactValue w)) := by
  have hpos {m : Nat} (e : Int) (hm : 0 < m) : (0 : ℚ) < m * 2 ^ e := by positivity
  have hneg {m : Nat} (e : Int) (hm : 0 < m) : -(m * 2 ^ e : ℚ) < 0 := neg_lt_zero.mpr (hpos e hm)
  obtain ⟨s, rfl⟩ | ⟨s, m, e, hm, rfl⟩ := finite_cases fu <;>
    obtain ⟨t, rfl⟩ | ⟨t, n, k, hn, rfl⟩ := finite_cases fw
  · exact congrArg some (compare_eq_iff_eq.mpr rfl).symm
  · cases t
    · exact congrArg some (compare_gt_iff_gt.mpr (hneg k hn)).symm
    · exact congrArg some (compare_lt_iff_lt.mpr (hpos k hn)).symm
  · cases s
    · exact congrArg some (compare_lt_iff_lt.mpr (hneg e hm)).symm
    · exact congrArg some (compare_gt_iff_gt.mpr (hpos e hm)).symm
  · cases s <;> cases t
    · exact congrArg some
        ((congrArg Ordering.swap (compare_magnitudes hu hw)).trans (compare_neg_neg _ _).symm)
    · exact congrArg some (compare_lt_iff_lt.mpr ((hneg e hm).trans (hpos k hn))).symm
    · exact congrArg some (compare_gt_iff_gt.mpr ((hneg k hn).trans (hpos e hm))).symm
    · exact congrArg some (compare_magnitudes hu hw)

end Downhill.Binary64

import Downhill.Proofs.Binary64.Limits

/-! # How long a hypotenuse can be

The hypotenuse is the one operation whose exact result need not be a rational number.  Its rounding
is found from the integer part of a root and from the side of the half unit on which the root lies,
and a rational number on the same side is rounded alike.  Such a number can be chosen below every
rational bound of the root (`exists_isRounded_sqrtCore`), so a bound of the exact length bounds the
rounded one as well (`exists_roundsTo_hypotenuse`).  All of this is about a hypotenuse that is
rounded correctly, which `Binary64.lean` assumes of the platform.
-/

namespace Downhill.Binary64

open Float.Model (Format UnpackedFloat totalExponent)
open Float.Model.UnpackedFloat

/-! ## 1. Roots of integers -/

/-- A number between two integers. -/
theorem floor_fract_of_between {r : Nat} {x : ℚ} (hlo : (r : ℚ) ≤ x) (hhi : x < r + 1) :
    ⌊x⌋ = r ∧ Int.fract x = x - r := by
  have hfloor : ⌊x⌋ = r := by
    rw [Int.floor_eq_iff, Int.cast_natCast]
    exact ⟨hlo, hhi⟩
  exact ⟨hfloor, by rw [Int.fract, hfloor, Int.cast_natCast]⟩

/-- A number in the lower half of a unit. -/
theorem brackets_lower {r : Nat} {x : ℚ} (hlo : (r : ℚ) < x) (hhi : x < r + 1 / 2) :
    Brackets (.ofMantissaAndAccuracy r (.inexact .lt)) x := by
  obtain ⟨hfloor, hfract⟩ := floor_fract_of_between hlo.le (by linarith)
  refine ⟨hfloor, iff_of_false (by rintro ⟨⟩) ?_, iff_of_true rfl ⟨?_, ?_⟩⟩ <;> rw [hfract] <;>
    linarith

/-- A number in the upper half of a unit. -/
theorem brackets_upper {r : Nat} {x : ℚ} (hlo : r + 1 / 2 < x) (hhi : x < (r : ℚ) + 1) :
    Brackets (.ofMantissaAndAccuracy r (.inexact .gt)) x := by
  obtain ⟨hfloor, hfract⟩ := floor_fract_of_between (by linarith) hhi
  refine ⟨hfloor, iff_of_true rfl ?_, iff_of_true rfl ⟨?_, ?_⟩⟩ <;> rw [hfract] <;> linarith

/-- What an integer root tells of the root: whether there is a rest, and whether it is more than the
root. -/
def rootAccuracy (n : Nat) : Accuracy :=
  if n - n.sqrt * n.sqrt = 0 then .exact
  else .inexact (if n - n.sqrt * n.sqrt ≤ n.sqrt then .lt else .gt)

/-- Below every rational bound of a root there is a number that the integer root and its rest do not
tell from it. -/
theorem exists_brackets_root {n : Nat} {w : ℚ} (hn : 0 < n) (hw : 0 ≤ w) (h : n ≤ w ^ 2) :
    ∃ x, (n.sqrt : ℚ) ≤ x ∧ 0 < x ∧ x ≤ w ∧
      Brackets (.ofMantissaAndAccuracy n.sqrt (rootAccuracy n)) x := by
  have hsq : n.sqrt * n.sqrt ≤ n := Nat.sqrt_le n
  have hroot : 0 < n.sqrt := Nat.sqrt_pos.mpr hn
  unfold rootAccuracy
  split_ifs with hexact hlower
  · have hle : (n.sqrt : ℚ) ≤ w := by
      refine le_of_sq_le_sq ?_ hw
      calc (n.sqrt : ℚ) ^ 2 = (n.sqrt * n.sqrt : Nat) := by rw [sq, Nat.cast_mul]
        _ ≤ n := by exact_mod_cast hsq
        _ ≤ w ^ 2 := h
    exact ⟨n.sqrt, le_rfl, by exact_mod_cast hroot, hle, brackets_exact _⟩
  · have hlt : (n.sqrt : ℚ) < w := by
      refine lt_of_pow_lt_pow_left₀ 2 hw ?_
      calc (n.sqrt : ℚ) ^ 2 = (n.sqrt * n.sqrt : Nat) := by rw [sq, Nat.cast_mul]
        _ < n := by exact_mod_cast (show n.sqrt * n.sqrt < n by omega)
        _ ≤ w ^ 2 := h
    have hx : (n.sqrt : ℚ) < min w (n.sqrt + 1 / 4) := lt_min hlt (by linarith)
    refine ⟨min w (n.sqrt + 1 / 4), hx.le, lt_of_le_of_lt (by positivity) hx, min_le_left _ _, ?_⟩
    exact brackets_lower hx ((min_le_right _ _).trans_lt (by linarith))
  · have hlt : (n.sqrt + 1 / 2 : ℚ) < w := by
      refine lt_of_pow_lt_pow_left₀ 2 hw ?_
      calc (n.sqrt + 1 / 2 : ℚ) ^ 2 < (n.sqrt * n.sqrt + n.sqrt + 1 : Nat) := by
            push_cast
            linarith [show (n.sqrt + 1 / 2 : ℚ) ^ 2 = n.sqrt * n.sqrt + n.sqrt + 1 / 4 by ring]
        _ ≤ n := by exact_mod_cast (show n.sqrt * n.sqrt + n.sqrt + 1 ≤ n by omega)
        _ ≤ w ^ 2 := h
    have hx : (n.sqrt + 1 / 2 : ℚ) < min w (n.sqrt + 3 / 4) := lt_min hlt (by linarith)
    refine ⟨min w (n.sqrt + 3 / 4), by linarith, lt_of_le_of_lt (by positivity) hx,
      min_le_left _ _, ?_⟩
    exact brackets_upper hx ((min_le_right _ _).trans_lt (by linarith))

/-! ## 2. Roots of numbers -/

/-- The exponent that a root is given. -/
def rootExponent (m : Nat) (e : Int) : Int :=
  min (e / 2) (Format.binary64.targetExponent ((totalExponent m e + 1) / 2))

theorem two_mul_rootExponent_le (m : Nat) (e : Int) : 2 * rootExponent m e ≤ e := by
  unfold rootExponent
  omega

/-- The mantissa beside twice that exponent. -/
def rootMantissa (m : Nat) (e : Int) : Nat := m <<< (e - 2 * rootExponent m e).toNat

theorem sqrtCore_eq (m : Nat) (e : Int) :
    sqrtCore .binary64 m e =
      ((rootMantissa m e).sqrt, rootExponent m e, rootAccuracy (rootMantissa m e)) := rfl

theorem rootMantissa_mul (m : Nat) (e : Int) :
    (rootMantissa m e : ℚ) * (2 ^ rootExponent m e) ^ 2 = m * 2 ^ e := by
  rw [← decreaseExponent_fst m (two_mul_rootExponent_le m e), rootMantissa, decreaseExponent,
    mul_comm 2, zpow_mul]
  rfl

theorem rootMantissa_pos {m : Nat} (hm : 0 < m) (e : Int) : 0 < rootMantissa m e := by
  rw [rootMantissa, Nat.shiftLeft_eq]
  positivity

/-- The exponent that a root is given reaches down to the last place of what is at least the integer
root. -/
theorem rootExponent_le_lastPlace {m : Nat} {e : Int} (hm : 0 < m) {x : ℚ}
    (hx : ((rootMantissa m e).sqrt : ℚ) ≤ x) (hpos : 0 < x) :
    rootExponent m e ≤ lastPlace (x * 2 ^ rootExponent m e) := by
  have hlow := neg_1074_le_lastPlace (x * 2 ^ rootExponent m e)
  have htarget : rootExponent m e ≤ max ((totalExponent m e + 1) / 2 - 53) (-1074) :=
    min_le_right _ _
  by_cases hsmall : rootExponent m e ≤ -1074
  · omega
  -- the root has at least `j + 1` bits
  obtain ⟨j, hj⟩ : ∃ j : Nat, (totalExponent m e + 1) / 2 - 1 = j + rootExponent m e :=
    ⟨((totalExponent m e + 1) / 2 - 1 - rootExponent m e).toNat, by omega⟩
  have hbits : 2 ^ j ≤ (rootMantissa m e).sqrt := by
    rw [Nat.le_sqrt, ← pow_two, ← pow_mul, rootMantissa, Nat.shiftLeft_eq]
    calc 2 ^ (j * 2) ≤ 2 ^ (m.log2 + (e - 2 * rootExponent m e).toNat) := by
          refine Nat.pow_le_pow_right two_pos ?_
          have := two_mul_rootExponent_le m e
          rw [totalExponent] at hj
          omega
      _ ≤ m * 2 ^ (e - 2 * rootExponent m e).toNat := by
          rw [pow_add]
          exact Nat.mul_le_mul_right _ (Nat.log2_self_le hm.ne')
  have hlog : j + rootExponent m e ≤ Int.log 2 (x * 2 ^ rootExponent m e) := by
    refine (Int.zpow_le_iff_le_log one_lt_two (by positivity)).mp ?_
    rw [Nat.cast_ofNat, zpow_add₀ two_ne_zero, zpow_natCast]
    refine mul_le_mul_of_nonneg_right (le_trans ?_ hx) (by positivity)
    exact_mod_cast hbits
  unfold lastPlace
  omega

/-- **A bound of a root bounds a number that is rounded as the root is.** -/
theorem exists_isRounded_sqrtCore {m : Nat} (hm : 0 < m) (e : Int) {w : ℚ} (hw : 0 ≤ w)
    (h : m * 2 ^ e ≤ w ^ 2) :
    let (root, exponent, accuracy) := sqrtCore .binary64 m e
    ∃ v, 0 ≤ v ∧ v ≤ w ∧
      IsRounded v (roundWithAccuracy .binary64 .positive root exponent accuracy) := by
  have hunit : (0 : ℚ) < 2 ^ rootExponent m e := by positivity
  obtain ⟨x, hroot, hpos, hxw, hbrackets⟩ :=
    exists_brackets_root (n := rootMantissa m e) (w := w / 2 ^ rootExponent m e)
      (rootMantissa_pos hm e) (by positivity)
      (by rwa [div_pow, le_div_iff₀ (by positivity), rootMantissa_mul])
  rw [sqrtCore_eq]
  exact ⟨x * 2 ^ rootExponent m e, by positivity, (le_div_iff₀ hunit).mp hxw,
    isRounded_roundWithAccuracy .positive hpos hbrackets
      (rootExponent_le_lastPlace hm hroot hpos)⟩

/-! ## 3. The hypotenuse -/

/-- The sum of squares is exact. -/
theorem sumOfSquares_mul (m n : Nat) (e k : Int) :
    ((sumOfSquares m e n k).1 : ℚ) * 2 ^ (sumOfSquares m e n k).2 =
      (m * 2 ^ e) ^ 2 + (n * 2 ^ k) ^ 2 := by
  rw [← decreaseExponent_fst m (min_le_left e k), ← decreaseExponent_fst n (min_le_right e k)]
  simp only [sumOfSquares, decreaseExponent]
  rw [two_mul, zpow_add₀ two_ne_zero, Nat.cast_add, Nat.cast_mul, Nat.cast_mul]
  ring

theorem sumOfSquares_pos {m : Nat} (hm : 0 < m) (n : Nat) (e k : Int) :
    0 < (sumOfSquares m e n k).1 := by
  simp only [sumOfSquares, Nat.shiftLeft_eq]
  positivity

theorem sq_signed (s : Sign) (q : ℚ) : signed s q ^ 2 = q ^ 2 := by
  cases s
  · exact neg_sq q
  · rfl

/-- Beside a zero the magnitude of the other leg is its own rounding. -/
theorem isRounded_abs {u : UnpackedFloat} (h : Canonical u) (hu : u.isFinite = true) :
    IsRounded |exactValue u| u.abs := by
  rw [← exactValue_abs]
  refine isRounded_self (canonical_abs h) ?_
  obtain ⟨s, rfl⟩ | ⟨s, m, e, hm, rfl⟩ := finite_cases hu <;> rfl

variable {x y : Float}

/-- **A bound of the length bounds a number that the hypotenuse rounds.** -/
theorem exists_roundsTo_hypotenuse (hx : x.isFinite = true) (hy : y.isFinite = true) {w : ℚ}
    (hw : 0 ≤ w) (h : toRat x ^ 2 + toRat y ^ 2 ≤ w ^ 2) :
    ∃ v, 0 ≤ v ∧ v ≤ w ∧ RoundsTo (hypotenuse x y) v := by
  suffices hform : ∃ v, 0 ≤ v ∧ v ≤ w ∧
      IsRounded v (unpackedHypotenuse (unpacked x) (unpacked y)) by
    obtain ⟨v, hv, hvw, hround⟩ := hform
    exact ⟨v, hv, hvw, _, hround, unpack_pack hround.canonical⟩
  have cx := canonical_unpacked x
  have cy := canonical_unpacked y
  rw [toRat, toRat] at h
  obtain ⟨s, hs⟩ | ⟨s, m, e, hm, hs⟩ := unpacked_cases hx <;>
    obtain ⟨t, ht⟩ | ⟨t, n, k, hn, ht⟩ := unpacked_cases hy <;>
    rw [hs] at h cx ⊢ <;> rw [ht] at h cy ⊢
  · exact ⟨0, le_rfl, hw, isRounded_zero _⟩
  · refine ⟨_, abs_nonneg _, abs_le_of_sq_le_sq ?_ hw, isRounded_abs cy rfl⟩
    rwa [exactValue_zero, zero_pow two_ne_zero, zero_add] at h
  · refine ⟨_, abs_nonneg _, abs_le_of_sq_le_sq ?_ hw, isRounded_abs cx rfl⟩
    rwa [exactValue_zero, zero_pow two_ne_zero, add_zero] at h
  · rw [exactValue, exactValue, sq_signed, sq_signed, ← sumOfSquares_mul] at h
    exact exists_isRounded_sqrtCore (sumOfSquares_pos hm n e k) _ hw h

/-- Beside a finite leg the other one decides whether the hypotenuse is undefined. -/
theorem hypotenuse_defined_of_finite (hx : x.isNaN = false) (hy : y.isFinite = true) :
    (hypotenuse x y).isNaN = false := by
  by_cases hfinite : x.isFinite = true
  · exact hypotenuse_defined hfinite hy
  · obtain ⟨s, hs⟩ := infinite_of_not_finite hfinite hx
    have hform : unpacked (hypotenuse x y) = .infinity .positive := by
      rw [unpacked_hypotenuse, hs]
      exact unpack_pack (u := .infinity .positive) trivial
    change (unpacked (hypotenuse x y)).isNaN = false
    rw [hform]
    rfl

/-- A finite hypotenuse has finite legs. -/
theorem finite_of_hypotenuse (h : (hypotenuse x y).isFinite = true) :
    x.isFinite = true ∧ y.isFinite = true := by
  by_contra hlegs
  change (unpacked (hypotenuse x y)).isFinite = true at h
  rcases unpacked_hypotenuse_of_not_finite hlegs with hform | hform <;> rw [hform] at h <;> cases h

/-- A hypotenuse that is not undefined does not read as negative. -/
theorem zero_le_hypotenuse (h : (hypotenuse x y).isNaN = false) : 0.0 ≤ hypotenuse x y := by
  by_cases hfinite : x.isFinite = true ∧ y.isFinite = true
  · obtain ⟨hx, hy⟩ := hfinite
    obtain ⟨v, hv, -, hround⟩ := exists_roundsTo_hypotenuse hx hy
      (w := |toRat x| + |toRat y|) (by positivity)
      (by nlinarith [abs_nonneg (toRat x), abs_nonneg (toRat y), sq_abs (toRat x),
        sq_abs (toRat y)])
    exact (roundsTo_self rfl).le hround hv
  · rcases unpacked_hypotenuse_of_not_finite hfinite with hform | hform
    · rw [le_iff_unpacked, hform]
      rfl
    · change (unpacked (hypotenuse x y)).isNaN = false at h
      rw [hform] at h
      cases h

end Downhill.Binary64

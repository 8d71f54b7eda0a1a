import Downhill.Proofs.Binary64.Order

/-! # Numbers and their words

A machine number is stored as a word.  Read as an integer, its `rank`, the word of a number without
a sign bit consists of the exponent field and, below it, the mantissa field of 52 bits.  So the
ranks enumerate zero and the positive numbers, up to infinity at `2047 · 2 ^ 52`.

* `isFinite_of_rank`, `rank_lt_of_pos`: the ranks below that one belong to finite numbers that are
  not negative, and every positive finite number has such a rank.
* `rank_below`: one step down from such a number lowers the rank by one.
* `toRat_unitOfWord`: the number that a word stands for is exactly its upper 52 bits in units of
  `2 ^ -52`.
-/

namespace Downhill.Binary64

open Float.Model (Format UnpackedFloat)
open Float.Model.UnpackedFloat

/-! ## 1. The fields of a word -/

section Fields

variable (b : BitVec 64)

theorem toNat_exponentField :
    (@unpackExponent .binary64 b).toNat = b.toNat / 2 ^ 52 % 2 ^ 11 := by
  rw [unpackExponent, BitVec.toNat_cast, BitVec.extractLsb_toNat, Nat.shiftRight_eq_div_pow]
  rfl

theorem toNat_mantissaField : (@unpackMantissa .binary64 b).toNat = b.toNat % 2 ^ 52 := by
  rw [unpackMantissa, BitVec.toNat_cast, BitVec.extractLsb_toNat, Nat.shiftRight_zero]
  rfl

theorem toNat_signField : (@unpackSign .binary64 b).toNat = b.toNat / 2 ^ 63 := by
  rw [unpackSign, BitVec.toNat_cast, BitVec.extractLsb_toNat, Nat.shiftRight_eq_div_pow]
  have hlt := b.isLt
  change b.toNat / 2 ^ 63 % 2 = _
  omega

/-- The sign is the leading bit. -/
theorem signField_positive_iff :
    Sign.ofBitVec (@unpackSign .binary64 b) = .positive ↔ b.toNat < 2 ^ 63 := by
  have hzero : @unpackSign .binary64 b = 0#1 ↔ b.toNat < 2 ^ 63 := by
    rw [← BitVec.toNat_inj, toNat_signField]
    change b.toNat / 2 ^ 63 = 0 ↔ _
    omega
  rw [← hzero, Sign.ofBitVec]
  split_ifs with h
  · exact iff_of_true rfl h
  · exact iff_of_false (by rintro ⟨⟩) h

/-- The decoded form of a word, its fields read as integers. -/
theorem unpack_eq_fields : unpack .binary64 b =
    decoded (.ofBitVec (@unpackSign .binary64 b)) (b.toNat / 2 ^ 52 % 2 ^ 11)
      (b.toNat % 2 ^ 52) := by
  rw [unpack_eq_decoded, toNat_exponentField, toNat_mantissaField]

/-- Without a sign bit nothing but the exponent stands above the mantissa. -/
theorem unpack_of_lt (h : b.toNat < 2 ^ 63) :
    unpack .binary64 b = decoded .positive (b.toNat / 2 ^ 52) (b.toNat % 2 ^ 52) := by
  rw [unpack_eq_fields, (signField_positive_iff b).mpr h, Nat.mod_eq_of_lt (by omega)]

end Fields

/-- Except for the undefined forms, a decoded form has only one triple of fields. -/
theorem decoded_inj {s t : Sign} {e k m n : Nat} (he : e < 2047) (hm : m < 2 ^ 52)
    (hn : n < 2 ^ 52) (h : decoded s e m = decoded t k n) : s = t ∧ e = k ∧ m = n := by
  rw [decoded, decoded, if_neg he.ne] at h
  split_ifs at h <;> grind

theorem isFinite_decoded_iff {s : Sign} {e m : Nat} :
    (decoded s e m).isFinite = true ↔ e ≠ 2047 := by
  rw [decoded]
  split_ifs with he hm
  · exact iff_of_false (by rintro ⟨⟩) (not_not.mpr he)
  · exact iff_of_false (by rintro ⟨⟩) (not_not.mpr he)
  · exact iff_of_true rfl he
  · exact iff_of_true rfl he
  · exact iff_of_true rfl he

/-- The exact value of a decoded form has its sign. -/
theorem exactValue_decoded (s : Sign) (e m : Nat) :
    ∃ v, 0 ≤ v ∧ exactValue (decoded s e m) = signed s v := by
  have hzero : (0 : ℚ) = signed s 0 := by cases s <;> simp [signed]
  rw [decoded]
  split_ifs
  · exact ⟨0, le_rfl, hzero⟩
  · exact ⟨0, le_rfl, hzero⟩
  · exact ⟨0, le_rfl, hzero⟩
  · exact ⟨_, by positivity, rfl⟩
  · exact ⟨_, by positivity, rfl⟩

/-! ## 2. Ranks -/

/-- The rank of positive infinity. -/
def infinityRank : Nat := 2047 * 2 ^ 52

variable {x : Float}

theorem unpacked_of_rank (h : rank x < infinityRank) :
    unpacked x = decoded .positive (rank x / 2 ^ 52) (rank x % 2 ^ 52) := by
  have hlt : rank x < 2047 * 2 ^ 52 := h
  exact unpack_of_lt x.toBits.toBitVec (show rank x < 2 ^ 63 by omega)

/-- Zero and the numbers after it, up to infinity, are finite and not negative. -/
theorem isFinite_of_rank (h : rank x < infinityRank) : x.isFinite = true ∧ 0 ≤ toRat x := by
  have hx := unpacked_of_rank h
  constructor
  · change (unpacked x).isFinite = true
    have hlt : rank x < 2047 * 2 ^ 52 := h
    rw [hx, isFinite_decoded_iff]
    omega
  · obtain ⟨v, hv, hvalue⟩ := exactValue_decoded .positive (rank x / 2 ^ 52) (rank x % 2 ^ 52)
    rw [toRat, hx, hvalue]
    exact hv

theorem isZero_of_rank (h : rank x = 0) : IsZero x := by
  have hx := unpacked_of_rank (x := x) (h ▸ by decide)
  rw [h] at hx
  exact ⟨.positive, hx⟩

/-- **Every positive finite number has a rank below that of infinity.** -/
theorem rank_lt_of_pos (hx : x.isFinite = true) (hpos : 0 < toRat x) : rank x < infinityRank := by
  have hform : unpacked x = decoded (.ofBitVec (@unpackSign .binary64 x.toBits.toBitVec))
      (rank x / 2 ^ 52 % 2 ^ 11) (rank x % 2 ^ 52) := unpack_eq_fields x.toBits.toBitVec
  have hsign : rank x < 2 ^ 63 := by
    refine (signField_positive_iff x.toBits.toBitVec).mp ?_
    rw [toRat, hform] at hpos
    cases hs : Sign.ofBitVec (@unpackSign .binary64 x.toBits.toBitVec) with
    | positive => rfl
    | negative =>
      obtain ⟨v, hv, hvalue⟩ :=
        exactValue_decoded .negative (rank x / 2 ^ 52 % 2 ^ 11) (rank x % 2 ^ 52)
      rw [hs, hvalue] at hpos
      exact absurd hv (not_le.mpr (neg_pos.mp hpos))
  have hexponent : rank x / 2 ^ 52 % 2 ^ 11 ≠ 2047 := by
    change (unpacked x).isFinite = true at hx
    rw [hform] at hx
    exact isFinite_decoded_iff.mp hx
  change rank x < 2047 * 2 ^ 52
  omega

/-- The word of a rank is read back. -/
theorem rank_ofBits {w : UInt64} (h : w.toNat < infinityRank) :
    rank (Float.ofBits w) = w.toNat := by
  have hlt : w.toNat < 2047 * 2 ^ 52 := h
  have hform : unpacked (Float.ofBits w) =
      decoded .positive (w.toNat / 2 ^ 52) (w.toNat % 2 ^ 52) := by
    have hsame : unpacked (Float.ofBits w) = unpack .binary64 w.toBitVec :=
      (unpack_pack (canonical_unpack w.toBitVec).1).trans (canonical_unpack w.toBitVec).2
    rw [hsame]
    exact unpack_of_lt w.toBitVec (by rw [UInt64.toNat_toBitVec]; omega)
  have hfields := unpack_eq_fields (Float.ofBits w).toBits.toBitVec
  obtain ⟨hsign, hexponent, hmantissa⟩ :=
    decoded_inj (by omega) (by omega) (by omega) (hform.symm.trans hfields)
  have hpositive := (signField_positive_iff _).mp hsign.symm
  change (Float.ofBits w).toBits.toBitVec.toNat = w.toNat
  omega

/-- **One step down lowers the rank by one.** -/
theorem rank_below (hpos : 0 < rank x) (h : rank x < infinityRank) :
    rank (below x) = rank x - 1 := by
  have hword : (x.toBits - 1).toNat = rank x - 1 := by
    have hone : (1 : UInt64) ≤ x.toBits := hpos
    rw [UInt64.toNat_sub_of_le _ _ hone]
    rfl
  rw [below, rank_ofBits (by omega), hword]

/-! ## 3. The number that a word stands for -/

/-- The word with the exponent field of one and the upper part of `w` for its mantissa field. -/
theorem toNat_fractionWord (w : UInt64) :
    ((0x3ff0000000000000 : UInt64) ||| (w >>> 12)).toNat =
      1023 * 2 ^ 52 + w.toNat / 2 ^ 12 := by
  have hlt := w.toNat_lt
  have hshift : (w >>> 12).toNat = w.toNat / 2 ^ 12 := by
    rw [UInt64.toNat_shiftRight, Nat.shiftRight_eq_div_pow]
    rfl
  have hor := Nat.shiftLeft_add_eq_or_of_lt (b := w.toNat / 2 ^ 12) (i := 52) (by omega) 1023
  rw [Nat.shiftLeft_eq] at hor
  rw [UInt64.toNat_or, hshift]
  exact hor.symm

/-- It is a number between one and two. -/
theorem toRat_fraction (w : UInt64) :
    let x := Float.ofBits ((0x3ff0000000000000 : UInt64) ||| (w >>> 12))
    x.isFinite = true ∧ toRat x = 1 + (w.toNat / 2 ^ 12 : Nat) / 2 ^ 52 := by
  intro x
  have hlt := w.toNat_lt
  have hword := toNat_fractionWord w
  have hrank : rank x = 1023 * 2 ^ 52 + w.toNat / 2 ^ 12 := by
    rw [← hword]
    exact rank_ofBits (by rw [hword, infinityRank]; omega)
  have hfits : rank x < infinityRank := by rw [hrank, infinityRank]; omega
  have hexponent : rank x / 2 ^ 52 = 1023 := by omega
  have hmantissa : rank x % 2 ^ 52 = w.toNat / 2 ^ 12 := by omega
  refine ⟨(isFinite_of_rank hfits).1, ?_⟩
  rw [toRat, unpacked_of_rank hfits, hexponent, hmantissa]
  change ((2 ^ 52 + w.toNat / 2 ^ 12 : Nat) : ℚ) * 2 ^ ((1023 : Nat) - 1075 : Int) = _
  rw [show ((1023 : Nat) - 1075 : Int) = -52 by norm_num]
  push_cast
  ring

/-- **The number that a word stands for is its upper 52 bits in units of `2 ^ -52`.** -/
theorem toRat_unitOfWord (w : UInt64) :
    (unitOfWord w).isFinite = true ∧ toRat (unitOfWord w) = (w.toNat / 2 ^ 12 : Nat) / 2 ^ 52 := by
  obtain ⟨hfinite, hvalue⟩ := toRat_fraction w
  have hround := roundsTo_sub hfinite (y := 1.0) rfl
  rw [hvalue, toRat_one, add_sub_cancel_left] at hround
  change RoundsTo (unitOfWord w) _ at hround
  have hupper : w.toNat / 2 ^ 12 < 2 ^ 52 := by have := w.toNat_lt; omega
  generalize w.toNat / 2 ^ 12 = v at hround hupper
  have hv : (v : ℚ) / 2 ^ 52 ≤ 1 := by
    rw [div_le_one (by positivity)]
    exact_mod_cast hupper.le
  have hgrid : OnGrid ((v : ℚ) / 2 ^ 52) := by
    refine ⟨v, -52, ?_, by norm_num, ?_⟩
    · rw [Nat.abs_cast]
      omega
    · rw [zpow_neg, div_eq_mul_inv]
      norm_cast
  have hunit : (unitOfWord w).isFinite = true :=
    finite_of_between (a := 0.0) (b := 1.0) rfl rfl
      ((roundsTo_self rfl).le hround (by rw [toRat_zero]; positivity))
      (hround.le (roundsTo_self rfl) (by rw [toRat_one]; exact hv))
  exact ⟨hunit, by rw [hround.toRat_eq hunit, rounded_of_onGrid hgrid]⟩

theorem toRat_unitOfWord_nonneg (w : UInt64) : 0 ≤ toRat (unitOfWord w) := by
  rw [(toRat_unitOfWord w).2]
  positivity

/-- A word never stands for one, so a draw from a range without its upper end has no number to
reject. -/
theorem unitOfWord_lt_one (w : UInt64) : unitOfWord w < 1.0 := by
  obtain ⟨hfinite, hvalue⟩ := toRat_unitOfWord w
  have hupper : w.toNat / 2 ^ 12 < 2 ^ 52 := by have := w.toNat_lt; omega
  rw [lt_iff_toRat hfinite rfl, toRat_one, hvalue, div_lt_one (by positivity)]
  exact_mod_cast hupper

/-- The word of ones stands for the largest number. -/
theorem toRat_unitOfWord_le (w : UInt64) :
    toRat (unitOfWord w) ≤ toRat (unitOfWord 0xffffffffffffffff) := by
  rw [(toRat_unitOfWord w).2, (toRat_unitOfWord _).2]
  have hupper : w.toNat / 2 ^ 12 ≤ (0xffffffffffffffff : UInt64).toNat / 2 ^ 12 := by
    have hlt := w.toNat_lt
    change w.toNat / 2 ^ 12 ≤ 2 ^ 52 - 1
    omega
  exact div_le_div_of_nonneg_right (by exact_mod_cast hupper) (by positivity)

end Downhill.Binary64

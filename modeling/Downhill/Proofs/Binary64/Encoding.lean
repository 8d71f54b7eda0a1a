import Mathlib
import Downhill.Proofs.Binary64.Rounding

/-! # Machine numbers and their decoded form

A machine number is a word of 64 bits; its decoded form is an infinity, an undefined result, a
zero, or a sign with a mantissa and an exponent.  The operations of binary64 work on decoded
forms and encode what comes out.

* `unpack_pack`: encoding loses nothing but the finite results that are too large, which become
  infinite.  It presupposes that the result is in the canonical form, in which the mantissa has 53
  bits or the exponent is the least one; this is the form in which all operations leave it.
* `canonical_unpack`: every decoded word has this form, with an exponent of at most 971.
-/

namespace Downhill.Binary64

open Float.Model (Format UnpackedFloat)
open Float.Model.UnpackedFloat

/-! ## 1. Decoded forms -/

/-- The mantissa has 53 bits, or fewer beside the least exponent. -/
def Canonical : UnpackedFloat → Prop
  | .finite _ m e _ => m < 2 ^ 53 ∧ -1074 ≤ e ∧ (2 ^ 52 ≤ m ∨ e = -1074)
  | _ => True

/-- A finite form whose exponent is too large for a word becomes infinite. -/
def saturated : UnpackedFloat → UnpackedFloat
  | .finite s m e h => if e ≤ 971 then .finite s m e h else .infinity s
  | u => u

/-- A magnitude with a sign. -/
def signed (s : Sign) (q : ℚ) : ℚ :=
  match s with
  | .positive => q
  | .negative => -q

/-- The exact value of a finite form.  For the others it is zero and means nothing. -/
def exactValue : UnpackedFloat → ℚ
  | .finite s m e _ => signed s (m * 2 ^ e)
  | _ => 0

/-! ## 2. Encoding and decoding -/

/-- The leading bit, which a word leaves out, is put back in front of the other 52. -/
theorem toNat_one_append (m : BitVec 52) : (1#1 ++ m).toNat = 2 ^ 52 + m.toNat := by
  rw [BitVec.toNat_append, ← Nat.shiftLeft_add_eq_or_of_lt m.isLt]
  rfl

theorem log2_lt_53 {m : Nat} (h : m < 2 ^ 53) : m.log2 < 53 := by
  rcases Nat.eq_zero_or_pos m with rfl | hm
  · decide
  · exact (Nat.log2_lt hm.ne').mpr h

/-- The decoded form of a word, by its sign, its exponent field and its mantissa field. -/
def decoded (s : Sign) (e m : Nat) : UnpackedFloat :=
  if e = 2047 then (if m = 0 then .infinity s else .notANumber)
  else if e = 0 then
    if h : m = 0 then .zero s else .finite s m (-1074) (Nat.pos_of_ne_zero h)
  else .finite s (2 ^ 52 + m) (e - 1075) (by omega)

theorem unpack_eq_decoded (b : BitVec 64) :
    unpack .binary64 b = decoded (.ofBitVec (@unpackSign .binary64 b))
      (@unpackExponent .binary64 b).toNat
      (@unpackMantissa .binary64 b).toNat := by
  have hones (e : BitVec 11) : e = -1#11 ↔ e.toNat = 2047 := by rw [← BitVec.toNat_inj]; rfl
  have hzero (e : BitVec 11) : e = 0#11 ↔ e.toNat = 0 := by rw [← BitVec.toNat_inj]; rfl
  have hm (m : BitVec 52) : m = 0#52 ↔ m.toNat = 0 := by rw [← BitVec.toNat_inj]; rfl
  simp only [unpack, decoded, hones, hzero, hm, toNat_one_append]
  split_ifs with h₁ h₂ h₃
  · rfl
  · rfl
  · rfl
  · rw [h₃]; rfl
  · rfl

theorem unpack_packComponents (s : Sign) (e : BitVec 11) (m : BitVec 52) :
    unpack .binary64 (packComponents .binary64 s e m) = decoded s e.toNat m.toNat := by
  rw [unpack_eq_decoded, unpackMantissa_packComponents, unpackExponent_packComponents,
    unpackSign_packComponents, Sign.ofBitVec_toBitVec]

/-- A finite form within range is stored in the fields of a word: below `2 ^ 52` the mantissa
stands as it is, from there on its leading bit is left out. -/
theorem pack_finite {s : Sign} {m : Nat} {e : Int} {hm : 0 < m}
    (h : Canonical (.finite s m e hm)) :
    UnpackedFloat.pack .binary64 (.finite s m e hm) =
      if 971 < e then packComponents .binary64 s (-1#11) 0#52
      else if 2 ^ 52 ≤ m then
        packComponents .binary64 s (BitVec.ofNat 11 (e + 1075).toNat) (BitVec.ofNat 52 m)
      else packComponents .binary64 s 0#11 (BitVec.ofNat 52 m) := by
  obtain ⟨hlt, hle, -⟩ := h
  have hbias :
      (e + (Format.binary64.exponentBias : Int) + (52 : Nat)).toNat = (e + 1075).toNat := by
    change (e + 1023 + 52).toNat = _
    omega
  have hfits : 2 ^ 11 ≤ (e + 1075).toNat + 1 ↔ 971 < e := by omega
  have hlog : m.log2 + 1 = Format.binary64.mantissaBits ↔ 2 ^ 52 ≤ m := by
    change m.log2 + 1 = 53 ↔ _
    have := log2_lt_53 hlt
    rw [← Nat.le_log2 hm.ne']
    omega
  simp only [UnpackedFloat.pack, hbias, hfits, hlog, packedInfinity]
  rfl

theorem unpack_pack_finite {s : Sign} {m : Nat} {e : Int} {hm : 0 < m}
    (h : Canonical (.finite s m e hm)) :
    unpack .binary64 (UnpackedFloat.pack .binary64 (.finite s m e hm)) =
      saturated (.finite s m e hm) := by
  rw [pack_finite h]
  obtain ⟨hlt, hle, hnormal⟩ := h
  simp only [saturated]
  by_cases he : e ≤ 971
  · have hexp : (BitVec.ofNat 11 (e + 1075).toNat).toNat = (e + 1075).toNat := by
      rw [BitVec.toNat_ofNat, Nat.mod_eq_of_lt (by omega)]
    rw [if_neg (by omega), if_pos he]
    by_cases hm52 : 2 ^ 52 ≤ m
    · have hmant : 2 ^ 52 + (BitVec.ofNat 52 m).toNat = m := by
        rw [BitVec.toNat_ofNat]
        omega
      rw [if_pos hm52, unpack_packComponents, hexp, decoded, if_neg (by omega),
        if_neg (by omega)]
      simp only [hmant]
      congr 1
      omega
    · have hmant : (BitVec.ofNat 52 m).toNat = m := by
        rw [BitVec.toNat_ofNat, Nat.mod_eq_of_lt (by omega)]
      obtain rfl : e = -1074 := hnormal.resolve_left hm52
      rw [if_neg hm52, unpack_packComponents, decoded, if_neg (by decide), if_pos (by decide),
        dif_neg (by omega)]
      simp only [hmant]
  · rw [if_pos (by omega), if_neg he, unpack_packComponents]
    rfl

/-- **Encoding loses nothing but the finite forms that are too large.** -/
theorem unpack_pack {u : UnpackedFloat} (h : Canonical u) :
    unpack .binary64 (UnpackedFloat.pack .binary64 u) = saturated u := by
  cases u with
  | finite s m e hm => exact unpack_pack_finite h
  | infinity s => exact unpack_packComponents s (-1#11) 0#52
  | zero s => exact unpack_packComponents s 0#11 0#52
  | notANumber => rfl

theorem decoded_ne_notANumber (s : Sign) {e m : Nat} (h : e = 2047 → m = 0) :
    decoded s e m ≠ .notANumber := by
  rw [decoded]
  split_ifs with h₁ h₂
  · rintro ⟨⟩
  · exact absurd (h h₁) h₂
  all_goals rintro ⟨⟩

/-- Only an undefined result is encoded as one, whatever its form. -/
theorem unpack_pack_ne_notANumber {u : UnpackedFloat} (h : u ≠ .notANumber) :
    unpack .binary64 (UnpackedFloat.pack .binary64 u) ≠ .notANumber := by
  cases u with
  | infinity s => rwa [unpack_pack (u := .infinity s) trivial]
  | notANumber => exact absurd rfl h
  | zero s => rwa [unpack_pack (u := .zero s) trivial]
  | finite s m e hm =>
    simp only [UnpackedFloat.pack]
    split_ifs with h₁ h₂
    · rw [packedInfinity, unpack_packComponents]
      exact decoded_ne_notANumber s fun _ => rfl
    · rw [unpack_packComponents]
      refine decoded_ne_notANumber s fun h₃ => absurd h₃ ?_
      rw [BitVec.toNat_ofNat, Nat.mod_eq_of_lt] <;> omega
    · rw [unpack_packComponents]
      exact decoded_ne_notANumber s fun h₃ => absurd h₃ (by decide)

theorem canonical_decoded (s : Sign) {e m : Nat} (he : e < 2048) (hm : m < 2 ^ 52) :
    Canonical (decoded s e m) ∧ saturated (decoded s e m) = decoded s e m := by
  rw [decoded]
  split_ifs with h₁ h₂ h₃ h₄
  · exact ⟨trivial, rfl⟩
  · exact ⟨trivial, rfl⟩
  · exact ⟨trivial, rfl⟩
  · exact ⟨⟨by omega, le_rfl, Or.inr rfl⟩, rfl⟩
  · exact ⟨⟨by omega, by omega, Or.inl (by omega)⟩, if_pos (by omega)⟩

/-- **Every decoded word is canonical**, and encoding it again loses nothing. -/
theorem canonical_unpack (b : BitVec 64) :
    Canonical (unpack .binary64 b) ∧ saturated (unpack .binary64 b) = unpack .binary64 b := by
  rw [unpack_eq_decoded]
  exact canonical_decoded _ (@unpackExponent .binary64 b).isLt
    (@unpackMantissa .binary64 b).isLt

end Downhill.Binary64

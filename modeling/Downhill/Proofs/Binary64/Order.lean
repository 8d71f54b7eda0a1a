import Downhill.Proofs.Binary64.Limits

/-! # Numbers in order

Comparison is total on the numbers that are not undefined: each has a position among the exact
numbers, or below or above all of them if it is infinite, and numbers are compared as their
positions are (`lt_iff_position`, `le_iff_position`, `beq_iff_position`).  The two zeros share one
position.  What is known of a linear order is so known of numbers.

Finite numbers that are not equal have a difference that does not read as zero (`zero_lt_sub`).
-/

namespace Downhill.Binary64

open Float.Model (Format UnpackedFloat)
open Float.Model.UnpackedFloat

/-! ## 1. Positions -/

/-- Where a form stands among the exact numbers, extended at both ends.  For an undefined one it
means nothing. -/
def position : UnpackedFloat → WithBot (WithTop ℚ)
  | .infinity .positive => ((⊤ : WithTop ℚ) : WithBot (WithTop ℚ))
  | .infinity .negative => ⊥
  | u => ((exactValue u : WithTop ℚ) : WithBot (WithTop ℚ))

variable {u w : UnpackedFloat}

theorem position_of_finite (hu : u.isFinite = true) :
    position u = ((exactValue u : WithTop ℚ) : WithBot (WithTop ℚ)) := by
  obtain ⟨s, rfl⟩ | ⟨s, m, e, hm, rfl⟩ := finite_cases hu <;> rfl

theorem position_lt_top (hu : u.isFinite = true) : position u < position (.infinity .positive) := by
  rw [position_of_finite hu]
  exact WithBot.coe_lt_coe.mpr (WithTop.coe_lt_top _)

theorem bot_lt_position (hu : u.isFinite = true) : position (.infinity .negative) < position u := by
  rw [position_of_finite hu]
  exact WithBot.bot_lt_coe _

theorem defined_cases (hu : u.isNaN = false) :
    u.isFinite = true ∨ u = .infinity .positive ∨ u = .infinity .negative := by
  cases u with
  | infinity s => cases s <;> simp
  | notANumber => cases hu
  | zero s | finite s m e hm => exact Or.inl rfl

/-- **Forms are compared as their positions are.** -/
theorem compare_eq_position (hu : Canonical u) (hw : Canonical w) (nu : u.isNaN = false)
    (nw : w.isNaN = false) : u.compare w = some (compare (position u) (position w)) := by
  have hends : position (.infinity .negative) < position (.infinity .positive) :=
    WithBot.bot_lt_coe _
  rcases defined_cases nu with fu | rfl | rfl <;> rcases defined_cases nw with fw | rfl | rfl
  · rw [compare_eq hu hw fu fw, position_of_finite fu, position_of_finite fw]
    rcases lt_trichotomy (exactValue u) (exactValue w) with h | h | h
    · rw [compare_lt_iff_lt.mpr h, compare_lt_iff_lt.mpr (by simpa using h)]
    · rw [h, compare_eq_iff_eq.mpr rfl, compare_eq_iff_eq.mpr rfl]
    · rw [compare_gt_iff_gt.mpr h, compare_gt_iff_gt.mpr (by simpa using h)]
  · rw [compare_lt_iff_lt.mpr (position_lt_top fu)]
    obtain ⟨s, rfl⟩ | ⟨s, m, e, hm, rfl⟩ := finite_cases fu <;> rfl
  · rw [compare_gt_iff_gt.mpr (bot_lt_position fu)]
    obtain ⟨s, rfl⟩ | ⟨s, m, e, hm, rfl⟩ := finite_cases fu <;> rfl
  · rw [compare_gt_iff_gt.mpr (position_lt_top fw)]
    obtain ⟨s, rfl⟩ | ⟨s, m, e, hm, rfl⟩ := finite_cases fw <;> rfl
  · exact congrArg some (compare_eq_iff_eq.mpr rfl).symm
  · exact congrArg some (compare_gt_iff_gt.mpr hends).symm
  · rw [compare_lt_iff_lt.mpr (bot_lt_position fw)]
    obtain ⟨s, rfl⟩ | ⟨s, m, e, hm, rfl⟩ := finite_cases fw <;> rfl
  · exact congrArg some (compare_lt_iff_lt.mpr hends).symm
  · exact congrArg some (compare_eq_iff_eq.mpr rfl).symm

/-! ## 2. Order and equality of numbers -/

variable {x y z : Float}

theorem compare_unpacked (hx : x.isNaN = false) (hy : y.isNaN = false) :
    (unpacked x).compare (unpacked y) =
      some (compare (position (unpacked x)) (position (unpacked y))) :=
  compare_eq_position (canonical_unpacked x) (canonical_unpacked y) hx hy

theorem lt_iff_position (hx : x.isNaN = false) (hy : y.isNaN = false) :
    x < y ↔ position (unpacked x) < position (unpacked y) := by
  rw [lt_iff_unpacked, UnpackedFloat.lt, compare_unpacked hx hy, beq_iff_eq, Option.some_inj]
  exact compare_lt_iff_lt

theorem le_iff_position (hx : x.isNaN = false) (hy : y.isNaN = false) :
    x ≤ y ↔ position (unpacked x) ≤ position (unpacked y) := by
  rw [le_iff_unpacked, UnpackedFloat.le, compare_unpacked hx hy, Option.any_some,
    Ordering.isLE_iff_ne_gt]
  exact compare_le_iff_le

theorem beq_iff_unpacked : (x == y) = true ↔ (unpacked x).beq (unpacked y) = true := Iff.rfl

theorem beq_iff_position (hx : x.isNaN = false) (hy : y.isNaN = false) :
    (x == y) = true ↔ position (unpacked x) = position (unpacked y) := by
  rw [beq_iff_unpacked, UnpackedFloat.beq, compare_unpacked hx hy, beq_iff_eq, Option.some_inj]
  exact compare_eq_iff_eq

/-- A number that is not undefined equals itself. -/
theorem beq_self_of_defined (hx : x.isNaN = false) : (x == x) = true :=
  (beq_iff_position hx hx).mpr rfl

/-- Of two numbers that are not undefined the first is at most the second, or the second is less. -/
theorem not_lt_iff_le (hx : x.isNaN = false) (hy : y.isNaN = false) : ¬x < y ↔ y ≤ x := by
  rw [lt_iff_position hx hy, le_iff_position hy hx, not_lt]

theorem le_refl_of_defined (hx : x.isNaN = false) : x ≤ x := (le_iff_position hx hx).mpr le_rfl

/-- No number is less than itself. -/
theorem not_lt_self (x : Float) : ¬x < x := by
  intro h
  have hx := (defined_of_le (le_of_lt h)).1
  rw [lt_iff_position hx hx] at h
  exact lt_irrefl _ h

theorem le_le_trans (hxy : x ≤ y) (hyz : y ≤ z) : x ≤ z := by
  obtain ⟨hx, hy⟩ := defined_of_le hxy
  have hz := (defined_of_le hyz).2
  rw [le_iff_position hx hy] at hxy
  rw [le_iff_position hy hz] at hyz
  exact (le_iff_position hx hz).mpr (hxy.trans hyz)

theorem lt_le_trans (hxy : x < y) (hyz : y ≤ z) : x < z := by
  obtain ⟨hx, hy⟩ := defined_of_le (le_of_lt hxy)
  have hz := (defined_of_le hyz).2
  rw [lt_iff_position hx hy] at hxy
  rw [le_iff_position hy hz] at hyz
  exact (lt_iff_position hx hz).mpr (hxy.trans_le hyz)

theorem le_lt_trans (hxy : x ≤ y) (hyz : y < z) : x < z := by
  obtain ⟨hx, hy⟩ := defined_of_le hxy
  have hz := (defined_of_le (le_of_lt hyz)).2
  rw [le_iff_position hx hy] at hxy
  rw [lt_iff_position hy hz] at hyz
  exact (lt_iff_position hx hz).mpr (hxy.trans_lt hyz)

/-- **Finite numbers in order have a positive difference.**  It is at least the least positive
number, whose multiples all numbers are. -/
theorem zero_lt_sub (hx : x.isFinite = true) (hy : y.isFinite = true) (h : x < y) :
    0.0 < y - x := by
  obtain ⟨m, hm⟩ := (onGrid_exactValue (canonical_unpacked x)).isMultiple
  obtain ⟨n, hn⟩ := (onGrid_exactValue (canonical_unpacked y)).isMultiple
  have hleast : toRat (.ofBits 1) = 2 ^ (-1074 : ℤ) := by
    have hvalue : toRat (.ofBits 1) = (1 : Nat) * 2 ^ (-1074 : ℤ) := rfl
    rw [hvalue, Nat.cast_one, one_mul]
  have hgap : toRat (.ofBits 1) ≤ toRat y - toRat x := by
    rw [lt_iff_toRat hx hy, toRat, toRat, hm, hn, mul_lt_mul_iff_left₀ (by positivity)] at h
    have hmn : m < n := by exact_mod_cast h
    have hone : (1 : ℚ) ≤ n - m := by exact_mod_cast (show 1 ≤ n - m by omega)
    rw [hleast, toRat, toRat, hm, hn, ← sub_mul]
    exact le_mul_of_one_le_left (by positivity) hone
  have hround := (roundsTo_self (x := .ofBits 1) (by decide +kernel)).le (roundsTo_sub hy hx) hgap
  exact lt_le_trans (by decide +kernel) hround

end Downhill.Binary64

import Downhill.Proofs.Binary64.Precision

/-! # Computed numbers near exact ones

What a formula gives in rounded arithmetic is near to what it gives exactly, as long as nothing on
the way leaves the range or comes near zero compared to its size.  Sizes and errors are counted
relative to a scale, which is that of the formula and not of its value: a sum that cancels has the
scale of its terms.

* `Near s k n x v`: the number `x` is finite and stands for the exact value `v`, which is at most
  `k` times the scale `s`, with an error of at most `n` units; a unit is the part `2 ^ -53` of the
  scale.
* `Near.add`, `Near.sub`, `Near.mul`, `Near.div`: one operation, with the one rounding it makes.  A
  sixteenth of the scale is put on every size for the errors that are in it, and a sixteenth of a
  unit on every rounding for a result that loses digits at the lower end of the range.
* `Near.le`: how a comparison of exact values carries over to the computed ones.

Formulas are followed part by part: the numbers that one part has computed are exact where the next
one starts (`Near.of_finite`), so that errors are counted against the data a part was given.
-/

namespace Downhill.Binary64

/-! ## 1. Scales -/

/-- A number between two powers of two. -/
def Between (i j : ℤ) (s : ℚ) : Prop := 2 ^ i ≤ s ∧ s ≤ 2 ^ j

variable {i j k l : ℤ} {r s t : ℚ}

theorem Between.pos (h : Between i j s) : 0 < s := lt_of_lt_of_le (by positivity) h.1

theorem Between.mono (h : Between i j s) (hi : k ≤ i) (hj : j ≤ l) : Between k l s :=
  ⟨(zpow_le_zpow_right₀ one_le_two hi).trans h.1, h.2.trans (zpow_le_zpow_right₀ one_le_two hj)⟩

theorem Between.mul (hs : Between i j s) (ht : Between k l t) :
    Between (i + k) (j + l) (s * t) := by
  rw [Between, zpow_add₀ two_ne_zero, zpow_add₀ two_ne_zero]
  exact ⟨mul_le_mul hs.1 ht.1 (by positivity) hs.pos.le,
    mul_le_mul hs.2 ht.2 ht.pos.le (by positivity)⟩

/-- A number that is known up to powers of two. -/
theorem Between.of_le (hs : Between i j s) (hlow : 2 ^ k * s ≤ t) (hhigh : t ≤ 2 ^ l * s) :
    Between (k + i) (l + j) t := by
  rw [Between, zpow_add₀ two_ne_zero, zpow_add₀ two_ne_zero]
  exact ⟨(mul_le_mul_of_nonneg_left hs.1 (by positivity)).trans hlow,
    hhigh.trans (mul_le_mul_of_nonneg_left hs.2 (by positivity))⟩

theorem Between.div (hs : Between i j s) (ht : Between k l t) :
    Between (i - l) (j - k) (s / t) := by
  rw [Between, zpow_sub₀ two_ne_zero, zpow_sub₀ two_ne_zero]
  exact ⟨div_le_div₀ hs.pos.le hs.1 ht.pos ht.2,
    div_le_div₀ (by positivity) hs.2 (by positivity) ht.1⟩

theorem Between.of_sq (hs : 0 ≤ s) (h : Between (i + i) (j + j) (s ^ 2)) : Between i j s := by
  rw [Between, zpow_add₀ two_ne_zero, zpow_add₀ two_ne_zero, ← sq, ← sq] at h
  exact ⟨le_of_sq_le_sq h.1 hs, le_of_sq_le_sq h.2 (by positivity)⟩

/-- The scales that leave room on both sides. -/
def IsScale (s : ℚ) : Prop := Between (-1018) 1010 s

theorem isScale_two_pow (hlow : -1018 ≤ i) (hhigh : i ≤ 1010) : IsScale (2 ^ i) :=
  Between.mono ⟨le_rfl, le_rfl⟩ hlow hhigh

theorem isScale_one : IsScale 1 := isScale_two_pow (i := 0) (by norm_num) (by norm_num)

/-! ## 2. Nearness -/

/-- A unit, relative to the scale. -/
def unitPart : ℚ := 2 ^ (-53 : ℤ)

theorem unitPart_pos : 0 < unitPart := by
  unfold unitPart
  positivity

theorem unitPart_eq : unitPart = 1 / 9007199254740992 := by norm_num [unitPart]

/-- The number is finite and stands for `v`, of size at most `k` and with an error of at most `n`
units, both in the scale `s`. -/
structure Near (s k n : ℚ) (x : Float) (v : ℚ) : Prop where
  scale : IsScale s
  within : k ≤ 32 ∧ n ≤ 32
  finite : x.isFinite = true
  size : |v| ≤ k * s
  error : |toRat x - v| ≤ n * (unitPart * s)

namespace Near

variable {k n l m : ℚ} {x y : Float} {v w : ℚ}

theorem of_finite (hs : IsScale s) (hx : x.isFinite = true) (h : |toRat x| ≤ k * s)
    (hk : k ≤ 32) : Near s k 0 x (toRat x) where
  scale := hs
  within := ⟨hk, by norm_num⟩
  finite := hx
  size := h
  error := by rw [sub_self, abs_zero, zero_mul]

theorem unit_pos (h : Near s k n x v) : 0 < unitPart * s := mul_pos unitPart_pos h.scale.pos

theorem size_nonneg (h : Near s k n x v) : 0 ≤ k :=
  nonneg_of_mul_nonneg_left ((abs_nonneg v).trans h.size) h.scale.pos

theorem error_nonneg (h : Near s k n x v) : 0 ≤ n :=
  nonneg_of_mul_nonneg_left ((abs_nonneg _).trans h.error) h.unit_pos

/-- All errors together are a small part of the scale. -/
theorem error_le_scale (h : Near s k n x v) : n * (unitPart * s) ≤ 1 / 16 * s := by
  rw [← mul_assoc]
  refine mul_le_mul_of_nonneg_right ?_ h.scale.pos.le
  calc n * unitPart ≤ 32 * unitPart := mul_le_mul_of_nonneg_right h.within.2 unitPart_pos.le
    _ ≤ 1 / 16 := by norm_num [unitPart]

/-- The number itself has nearly the size of what it stands for. -/
theorem abs_toRat_le (h : Near s k n x v) : |toRat x| ≤ (k + 1 / 16) * s := by
  linarith [abs_sub_abs_le_abs_sub (toRat x) v, h.size, h.error, h.error_le_scale]

/-- The size may be known better. -/
theorem resize (h : Near s k n x v) (hv : |v| ≤ l * s) (hl : l ≤ 32) : Near s l n x v where
  scale := h.scale
  within := ⟨hl, h.within.2⟩
  finite := h.finite
  size := hv
  error := h.error

/-- A smaller scale has smaller numbers of units in a larger one. -/
theorem rescale (h : Near (s * r) k n x v) (hs : IsScale s) (hr : r ≤ 1) :
    Near s (k * r) (n * r) x v where
  scale := hs
  within := ⟨(mul_le_of_le_one_right h.size_nonneg hr).trans h.within.1,
    (mul_le_of_le_one_right h.error_nonneg hr).trans h.within.2⟩
  finite := h.finite
  size := h.size.trans_eq (by ring)
  error := h.error.trans_eq (by ring)

/-! ## 3. Operations -/

/-- One rounding in a scale: half of the least positive number is a small part of a unit. -/
theorem abs_rounded_sub_le_scale (hs : IsScale s) (v : ℚ) :
    |rounded v - v| ≤ unitPart * |v| + 1 / 16 * (unitPart * s) := by
  have hsplit : (2 : ℚ) ^ (-1022 : ℤ) = 1 / 16 * 2 ^ (-1018 : ℤ) := by
    rw [show (-1022 : ℤ) = -4 + -1018 by norm_num, zpow_add₀ two_ne_zero]
    norm_num
  refine (abs_rounded_sub_le v).trans (add_le_add_right ?_ _)
  rw [two_pow_neg_1075, hsplit, mul_left_comm]
  exact mul_le_mul_of_nonneg_left (mul_le_mul_of_nonneg_left hs.1 unitPart_pos.le) (by norm_num)

/-- What rounds a value of moderate size in a scale is finite. -/
theorem finite_of_roundsTo (hs : IsScale s) (h : RoundsTo x v) (hv : |v| ≤ 2 ^ (12 : ℕ) * s) :
    x.isFinite = true := by
  refine (h.bounded_two_pow (k := 1022) (by norm_num) (by norm_num) (hv.trans ?_)).1
  calc (2 : ℚ) ^ (12 : ℕ) * s ≤ 2 ^ (12 : ℤ) * 2 ^ (1010 : ℤ) := by
        rw [zpow_ofNat]
        exact mul_le_mul_of_nonneg_left hs.2 (by positivity)
    _ = 2 ^ (1022 : ℤ) := by rw [← zpow_add₀ two_ne_zero]; rfl

variable {k' n' : ℚ} {z : Float}

/-- **One rounding**: with a computed value of size `l` it adds `l` units to the error. -/
theorem of_roundsTo (hs : IsScale s) (h : RoundsTo z w) (hw : |w| ≤ l * s) (hv : |v| ≤ k' * s)
    (herror : |w - v| ≤ n * (unitPart * s)) (hl : l ≤ 2 ^ (12 : ℕ)) (hn : n + l + 1 / 16 ≤ n')
    (hwithin : k' ≤ 32 ∧ n' ≤ 32) : Near s k' n' z v := by
  have hz := finite_of_roundsTo hs h (hw.trans (mul_le_mul_of_nonneg_right hl hs.pos.le))
  refine ⟨hs, hwithin, hz, hv, ?_⟩
  have hround := abs_rounded_sub_le_scale hs w
  rw [← h.toRat_eq hz] at hround
  have hpart := mul_le_mul_of_nonneg_left hw unitPart_pos.le
  have htotal := mul_le_mul_of_nonneg_right hn (mul_pos unitPart_pos hs.pos).le
  linarith [abs_sub_le (toRat z) w v]

theorem neg (h : Near s k n x v) : Near s k n (-x) (-v) where
  scale := h.scale
  within := h.within
  finite := isFinite_neg h.finite
  size := by rw [abs_neg]; exact h.size
  error := by
    rw [toRat_neg, neg_sub_neg, abs_sub_comm]
    exact h.error

/-- Doubling is exact. -/
theorem double (h : Near s k n x v) (hk : 2 * k ≤ k') (hn : 2 * n ≤ n')
    (hwithin : k' ≤ 32 ∧ n' ≤ 32) : Near s k' n' (2.0 * x) (2 * v) := by
  have hround := roundsTo_mul (x := 2.0) rfl h.finite
  rw [toRat_two] at hround
  have hfinite : (2.0 * x).isFinite = true := by
    refine finite_of_roundsTo h.scale hround ?_
    rw [abs_mul, abs_two]
    calc 2 * |toRat x|
        ≤ 2 * ((k + 1 / 16) * s) := mul_le_mul_of_nonneg_left h.abs_toRat_le zero_le_two
      _ ≤ 2 ^ (12 : ℕ) * s := by
          rw [← mul_assoc]
          refine mul_le_mul_of_nonneg_right ?_ h.scale.pos.le
          linarith [h.within.1]
  refine ⟨h.scale, hwithin, hfinite, ?_, ?_⟩
  · rw [abs_mul, abs_two]
    linarith [h.size, mul_le_mul_of_nonneg_right hk h.scale.pos.le]
  · rw [toRat_two_mul hfinite, ← mul_sub, abs_mul, abs_two]
    linarith [h.error, mul_le_mul_of_nonneg_right hn h.unit_pos.le]

/-- What rounds the sum of two computed numbers. -/
theorem of_roundsTo_add (hx : Near s k n x v) (hy : Near s l m y w)
    (h : RoundsTo z (toRat x + toRat y)) (hk : k + l ≤ k')
    (hn : n + m + (k + l + 1 / 8) + 1 / 16 ≤ n') (hwithin : k' ≤ 32 ∧ n' ≤ 32) : Near s k' n' z (v + w) := by
  refine of_roundsTo hx.scale h (n := n + m) (l := k + l + 1 / 8) ?_ ?_ ?_ ?_ hn hwithin
  · linarith [abs_add_le (toRat x) (toRat y), hx.abs_toRat_le, hy.abs_toRat_le]
  · linarith [abs_add_le v w, hx.size, hy.size, mul_le_mul_of_nonneg_right hk hx.scale.pos.le]
  · have hparts : toRat x + toRat y - (v + w) = (toRat x - v) + (toRat y - w) := by ring
    rw [hparts]
    linarith [abs_add_le (toRat x - v) (toRat y - w), hx.error, hy.error]
  · linarith [hx.within.1, hy.within.1]

theorem add (hx : Near s k n x v) (hy : Near s l m y w) (hk : k + l ≤ k')
    (hn : n + m + (k + l + 1 / 8) + 1 / 16 ≤ n') (hwithin : k' ≤ 32 ∧ n' ≤ 32) :
    Near s k' n' (x + y) (v + w) :=
  hx.of_roundsTo_add hy (roundsTo_add hx.finite hy.finite) hk hn hwithin

theorem sub (hx : Near s k n x v) (hy : Near s l m y w) (hk : k + l ≤ k')
    (hn : n + m + (k + l + 1 / 8) + 1 / 16 ≤ n') (hwithin : k' ≤ 32 ∧ n' ≤ 32) :
    Near s k' n' (x - y) (v - w) := by
  have hround := roundsTo_sub hx.finite hy.finite
  rw [sub_eq_add_neg, ← toRat_neg] at hround
  rw [sub_eq_add_neg v w]
  exact hx.of_roundsTo_add hy.neg hround hk hn hwithin

theorem mul (hx : Near s k n x v) (hy : Near t l m y w) (hst : IsScale (s * t)) (hk : k * l ≤ k')
    (hn : (n * l + (k + 1 / 16) * m) + (k + 1 / 16) * (l + 1 / 16) + 1 / 16 ≤ n')
    (hwithin : k' ≤ 32 ∧ n' ≤ 32) : Near (s * t) k' n' (x * y) (v * w) := by
  refine of_roundsTo hst (roundsTo_mul hx.finite hy.finite) (n := n * l + (k + 1 / 16) * m)
    (l := (k + 1 / 16) * (l + 1 / 16)) ?_ ?_ ?_ ?_ hn hwithin
  · rw [abs_mul]
    calc |toRat x| * |toRat y| ≤ ((k + 1 / 16) * s) * ((l + 1 / 16) * t) :=
          mul_le_mul hx.abs_toRat_le hy.abs_toRat_le (abs_nonneg _)
            ((abs_nonneg _).trans hx.abs_toRat_le)
      _ = (k + 1 / 16) * (l + 1 / 16) * (s * t) := by ring
  · rw [abs_mul]
    calc |v| * |w| ≤ (k * s) * (l * t) :=
          mul_le_mul hx.size hy.size (abs_nonneg _) ((abs_nonneg _).trans hx.size)
      _ = k * l * (s * t) := by ring
      _ ≤ k' * (s * t) := mul_le_mul_of_nonneg_right hk hst.pos.le
  · have hparts : toRat x * toRat y - v * w = (toRat x - v) * w + toRat x * (toRat y - w) := by ring
    rw [hparts]
    refine (abs_add_le _ _).trans ?_
    rw [abs_mul, abs_mul]
    calc |toRat x - v| * |w| + |toRat x| * |toRat y - w| ≤
          (n * (unitPart * s)) * (l * t) + ((k + 1 / 16) * s) * (m * (unitPart * t)) :=
          add_le_add
            (mul_le_mul hx.error hy.size (abs_nonneg _) ((abs_nonneg _).trans hx.error))
            (mul_le_mul hx.abs_toRat_le hy.error (abs_nonneg _)
              ((abs_nonneg _).trans hx.abs_toRat_le))
      _ = (n * l + (k + 1 / 16) * m) * (unitPart * (s * t)) := by ring
  · calc (k + 1 / 16) * (l + 1 / 16) ≤ (32 + 1 / 16) * (32 + 1 / 16) :=
          mul_le_mul (by linarith [hx.within.1]) (by linarith [hy.within.1])
            (by linarith [hy.size_nonneg]) (by positivity)
      _ ≤ 2 ^ (12 : ℕ) := by norm_num

/-- A divisor that is known exactly. -/
theorem div (hx : Near s k n x v) (hy : y.isFinite = true) (hpos : 0 < toRat y)
    (hst : IsScale (s / toRat y)) (hk : k ≤ k') (hn : n + (k + 1 / 16) + 1 / 16 ≤ n')
    (hwithin : k' ≤ 32 ∧ n' ≤ 32) : Near (s / toRat y) k' n' (x / y) (v / toRat y) := by
  have hquotient {w c : ℚ} (h : |w| ≤ c * s) : |w / toRat y| ≤ c * (s / toRat y) := by
    rw [abs_div, abs_of_pos hpos, ← mul_div_assoc]
    exact div_le_div_of_nonneg_right h hpos.le
  refine of_roundsTo hst (roundsTo_div hx.finite hy hpos.ne') (hquotient hx.abs_toRat_le)
    ((hquotient hx.size).trans (mul_le_mul_of_nonneg_right hk hst.pos.le)) ?_
    (by linarith [hx.within.1]) hn hwithin
  rw [← sub_div]
  refine (hquotient (c := n * unitPart) (hx.error.trans_eq (by ring))).trans_eq ?_
  ring

/-! ## 4. Comparison -/

/-- What is less by more than all errors is computed to be less. -/
theorem le (hx : Near s k n x v) (hy : Near s l m y w) (h : v + (n + m) * (unitPart * s) ≤ w) :
    x ≤ y := by
  rw [le_iff_toRat hx.finite hy.finite]
  linarith [(abs_le.mp hx.error).2, (abs_le.mp hy.error).1]

end Near

end Downhill.Binary64

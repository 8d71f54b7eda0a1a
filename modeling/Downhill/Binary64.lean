import Downhill.Scalar

/-! # Binary64 as the working arithmetic

The machine numbers of 64 bits are the arithmetic descents run on.  Addition, multiplication,
division and the square root round once each.

The hypotenuse, the sine and the cosine are taken to round once as well, to the nearest number.
That is an assumption about the mathematical library of the platform, not a promise of it: its
documentation leaves the precision of these three open, and the value may differ from platform to
platform.  With the assumption every value is determined by the formula alone.

* The hypotenuse forms the sum of squares exactly, as an integer times a power of four, so nothing
  overflows or underflows on the way; one integer square root, which also reports on which side of
  the half unit the true root lies, and one rounding give the result.
* Sine and cosine work in fixed point: an integer `v` with `bits` fraction bits stands for
  `v / 2 ^ bits`.  The argument is an exact multiple of such a unit, it is reduced by the nearest
  multiple of a right angle, and an alternating series is summed until its terms vanish.  The number
  of fraction bits is computed from the argument.  It leaves 256 bits after the reduction of a large
  argument and after the leading zeros of the sine of a small one, far more than telling the two
  sides of a half unit of the result apart has ever been seen to need.
-/

namespace Downhill

namespace Binary64

open Float.Model

/-! ## 1. The hypotenuse -/

/-- The exact value `m₁² · 4 ^ e₁ + m₂² · 4 ^ e₂`, as a coefficient and an exponent of two. -/
def sumOfSquares (m₁ : Nat) (e₁ : Int) (m₂ : Nat) (e₂ : Int) : Nat × Int :=
  let e := min e₁ e₂
  let a := m₁ <<< (e₁ - e).toNat
  let b := m₂ <<< (e₂ - e).toNat
  (a * a + b * b, 2 * e)

/-- The hypotenuse of two decoded numbers.  An infinite leg makes it infinite, even beside an
undefined one; beside a zero leg it is the magnitude of the other. -/
def unpackedHypotenuse : UnpackedFloat → UnpackedFloat → UnpackedFloat
  | .infinity _, _ => .infinity .positive
  | _, .infinity _ => .infinity .positive
  | .notANumber, _ => .notANumber
  | _, .notANumber => .notANumber
  | .zero _, y => y.abs
  | x, .zero _ => x.abs
  | .finite _ m₁ e₁ _, .finite _ m₂ e₂ _ =>
    let (m, e) := sumOfSquares m₁ e₁ m₂ e₂
    let (root, exponent, accuracy) := UnpackedFloat.sqrtCore .binary64 m e
    UnpackedFloat.roundWithAccuracy .binary64 .positive root exponent accuracy

/-- The binary64 number nearest to `√(x² + y²)`, which the platform is assumed to deliver. -/
def hypotenuse (x y : Float) : Float :=
  .ofModel (.pack (unpackedHypotenuse x.toModel.unpack y.toModel.unpack))

/-! ## 2. The right angle -/

/-- The alternating sum of `power / (2k + 1)` with `power` divided by `n²` from term to term. -/
def arctanTerms (n : Nat) : Nat → Nat → Nat → Int
  | 0, _, _ => 0
  | fuel + 1, k, power =>
    if power = 0 then 0
    else (power / (2 * k + 1) : Nat) - arctanTerms n fuel (k + 1) (power / (n * n))

/-- The angle whose tangent is `1 / n`, in fixed point. -/
def arctanOfInverse (bits n : Nat) : Int :=
  arctanTerms n bits 0 ((1 <<< bits) / n)

/-- A right angle in fixed point, by `π / 4 = 4 arctan (1/5) - arctan (1/239)`. -/
def rightAngle (bits : Nat) : Int :=
  2 * (4 * arctanOfInverse bits 5 - arctanOfInverse bits 239)

/-! ## 3. The series -/

/-- The alternating series whose term of index `k` is followed, at index `k + 2`, by
`-term · square / ((k + 1) (k + 2))`. -/
def alternatingSeries (bits : Nat) (square : Int) : Nat → Nat → Int → Int
  | 0, _, _ => 0
  | fuel + 1, k, term =>
    if term = 0 then 0
    else
      let scaled := (term * square).tdiv ((1 <<< bits : Nat) : Int)
      term + alternatingSeries bits square fuel (k + 2)
        (-(scaled.tdiv ((k + 1) * (k + 2) : Nat)))

/-- The sine of a fixed-point angle `r` of at most half a right angle. -/
def sineSeries (bits : Nat) (r : Int) : Int :=
  alternatingSeries bits ((r * r).tdiv ((1 <<< bits : Nat) : Int)) bits 1 r

/-- The cosine of a fixed-point angle `r` of at most half a right angle. -/
def cosineSeries (bits : Nat) (r : Int) : Int :=
  alternatingSeries bits ((r * r).tdiv ((1 <<< bits : Nat) : Int)) bits 0 ((1 <<< bits : Nat) : Int)

/-! ## 4. Reduction and rounding -/

/-- The fraction bits used for an angle of `m · 2 ^ e`. -/
def fractionBits (m : Nat) (e : Int) : Nat :=
  256 + 3 * (totalExponent m e).natAbs

/-- The sine of `angle + quarters` right angles, in fixed point. -/
def sineInQuarter (bits : Nat) (angle quarters : Int) : Int :=
  let right := rightAngle bits
  let n := (2 * angle + right) / (2 * right)
  let r := angle - n * right
  match (n + quarters) % 4 with
  | 0 => sineSeries bits r
  | 1 => cosineSeries bits r
  | 2 => -sineSeries bits r
  | _ => -cosineSeries bits r

/-- The number nearest to a fixed-point approximation of a value that is no dyadic fraction. -/
def roundFixed (bits : Nat) (v : Int) : UnpackedFloat :=
  UnpackedFloat.roundWithAccuracy .binary64 (if v < 0 then .negative else .positive)
    v.natAbs (-(bits : Int)) (.inexact .lt)

/-- The sine of `s · m · 2 ^ e + quarters` right angles, rounded. -/
def roundedSine (s : UnpackedFloat.Sign) (m : Nat) (e quarters : Int) : UnpackedFloat :=
  let bits := fractionBits m e
  let angle := s.apply ((m <<< (e + bits).toNat : Nat) : Int)
  roundFixed bits (sineInQuarter bits angle quarters)

/-- The binary64 number nearest to the sine of `x` radians, which the platform is assumed to
deliver.  It keeps the sign of a zero. -/
def sine (x : Float) : Float :=
  .ofModel <| .pack <| match x.toModel.unpack with
    | .infinity _ => .notANumber
    | .notANumber => .notANumber
    | .zero s => .zero s
    | .finite s m e _ => roundedSine s m e 0

/-- The binary64 number nearest to the cosine of `x` radians, which the platform is assumed to
deliver. -/
def cosine (x : Float) : Float :=
  .ofModel <| .pack <| match x.toModel.unpack with
    | .infinity _ => .notANumber
    | .notANumber => .notANumber
    | .zero _ => UnpackedFloat.round .binary64 .positive 1 0
    | .finite s m e _ => roundedSine s m e 1

/-! ## 5. The instance -/

/-- The number in `[0, 1)` given by the upper 52 bits of a word: they become the fraction of a
number in `[1, 2)`, from which one is subtracted. -/
def unitOfWord (word : UInt64) : Float :=
  Float.ofBits ((0x3ff0000000000000 : UInt64) ||| (word >>> 12)) - 1.0

/-- The next number towards zero from a positive one: the bit pattern one less. -/
def below (x : Float) : Float :=
  Float.ofBits (x.toBits - 1)

/-- The bit pattern of a positive number is its rank among the positive numbers. -/
def rank (x : Float) : Nat :=
  x.toBits.toNat

end Binary64

instance : Scalar Float where
  decLe x y := Float.decLe x y
  decLt x y := Float.decLt x y
  abs := Float.abs
  sqrt := Float.sqrt
  hypot := Binary64.hypotenuse
  cos := Binary64.cosine
  sin := Binary64.sine
  isFinite := Float.isFinite
  unitOfWord := Binary64.unitOfWord
  below := Binary64.below
  rank := Binary64.rank

end Downhill

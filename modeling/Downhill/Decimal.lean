/-! # Numbers as decimal text

A positive binary number `m · 2 ^ q` owns an interval of reals that round to it: half a gap to
either neighbour, where the gap below a power of two is half as wide.  The ends belong to the
interval exactly when `m` is even.  Its shortest decimal is the decimal with the fewest digits
inside that interval, the nearest one to the number if there are two.

For a given number of digits only the two grid points next to the number can be the nearest
inside the interval, so a search by the number of digits tests two candidates at each width.
Seventeen digits always suffice.  All comparisons are between exact integers.

A number is written with its shortest digits.  What remains to decide is a `Layout`: which
numbers are written positionally and which with an exponent, and whether a whole number keeps
a point.
-/

namespace Downhill

/-- The positive decimal `coefficient · 10 ^ exponent`: the coefficient is its digits read as one
integer, and the last of them counts `10 ^ exponent`. -/
structure Decimal where
  coefficient : Nat
  exponent : Int
deriving DecidableEq, Repr

namespace Decimal

/-! ## 1. Rows of digits -/

/-- The decimal digits of a natural number. -/
def digitsOf (n : Nat) : List Char := Nat.toDigits 10 n

/-- The decimal digits of a natural number, with zeros in front up to `width` digits. -/
def paddedDigits (width n : Nat) : List Char :=
  List.replicate (width - (digitsOf n).length) '0' ++ digitsOf n

/-- Digits without the zeros at their end. -/
def withoutTrailingZeros (ds : List Char) : List Char :=
  (ds.reverse.dropWhile (· == '0')).reverse

/-- A power of ten. -/
def tenTo (n : Nat) : Nat := Nat.pow 10 n

/-! ## 2. A number and its interval -/

/-- A positive number, `mantissa` units of `2 ^ exponent`, with the interval of reals that round to
it, in quarters of that unit.  `narrowBelow` is true where the gap below the number is half as wide
as the gap above. -/
structure Interval where
  mantissa : Nat
  exponent : Int
  narrowBelow : Bool

namespace Interval

/-- The number in quarter units. -/
def value (i : Interval) : Nat := 4 * i.mantissa

/-- The lower end in quarter units. -/
def low (i : Interval) : Nat := i.value - if i.narrowBelow then 1 else 2

/-- The upper end in quarter units. -/
def high (i : Interval) : Nat := i.value + 2

/-- The ends round to the number exactly when its mantissa is even. -/
def closed (i : Interval) : Bool := i.mantissa % 2 == 0

/-! ## 3. Comparison with a decimal grid -/

/-- The ratio of a quarter unit to `10 ^ k`, as a numerator and a denominator. -/
def ratio (i : Interval) (k : Int) : Nat × Nat :=
  ((1 <<< (i.exponent - 2).toNat) * tenTo (-k).toNat,
   (1 <<< (2 - i.exponent).toNat) * tenTo k.toNat)

/-- The order of the number and `10 ^ k`: true if the power is not larger. -/
def atLeastTenTo (i : Interval) (k : Int) : Bool :=
  let (num, den) := i.ratio k
  den ≤ i.value * num

/-- The decimal exponent of the number's leading digit: its binary logarithm, scaled, is off by
at most one. -/
def leadingExponent (i : Interval) : Int :=
  let guess := ((i.mantissa.log2 : Int) + i.exponent) * 30103 / 100000
  if i.atLeastTenTo (guess + 1) then guess + 1
  else if i.atLeastTenTo guess then guess
  else guess - 1

/-- The multiple of `10 ^ k` nearest to the number among those inside the interval.  Of two that
are equally near it is the larger. -/
def nearestOnGrid (i : Interval) (k : Int) : Option Decimal :=
  let (num, den) := i.ratio k
  let inside (c : Nat) : Bool :=
    if i.closed then i.low * num ≤ c * den && c * den ≤ i.high * num
    else i.low * num < c * den && c * den < i.high * num
  let scaled := i.value * num
  let down := scaled / den
  let up := down + 1
  if inside down && (!inside up || scaled - down * den < up * den - scaled) then some ⟨down, k⟩
  else if inside up then some ⟨up, k⟩
  else none

/-! ## 4. The search -/

/-- The first grid with a point inside the interval, from `digits` digits on. -/
def firstGrid (i : Interval) (leading : Int) : Nat → Nat → Decimal
  | 0, digits => ⟨0, leading - digits⟩
  | fuel + 1, digits =>
    match i.nearestOnGrid (leading + 1 - digits) with
    | some d => d
    | none => firstGrid i leading fuel (digits + 1)

/-- The decimal with the fewest digits that rounds to the number, and the nearest such. -/
def shortest (i : Interval) : Decimal :=
  i.firstGrid i.leadingExponent 17 1

end Interval

/-! ## 5. Layouts -/

/-- The decisions that turn digits into text: which exponents of the leading digit are written
positionally, and whether a whole number written so ends in `.0`. -/
structure Layout where
  positional : Int → Bool
  pointZero : Bool

namespace Layout

/-- Always positional, and whole numbers without a point: `5`, `0.0000001`. -/
def plain : Layout := ⟨fun _ => true, false⟩

/-- Positional from `1e-4` to below `1e16`, and whole numbers with a point: `5.0`, `1e-7`. -/
def tagged : Layout := ⟨fun e => -4 ≤ e && e < 16, true⟩

/-- Always with an exponent: `5e0`, `1e-7`. -/
def scientific : Layout := ⟨fun _ => false, false⟩

end Layout

/-- Digits with the point after the leading one, and the exponent of ten. -/
def scientificText (ds : List Char) (leading : Int) : List Char :=
  let mantissa := match ds with
    | d :: e :: rest => d :: '.' :: e :: rest
    | ds => ds
  mantissa ++ 'e' :: (toString leading).toList

/-- Digits with zeros up to the units and the point where the exponent puts it. -/
def positionalText (pointZero : Bool) (ds : List Char) (leading : Int) : List Char :=
  if leading < 0 then
    '0' :: '.' :: List.replicate (-leading - 1).toNat '0' ++ ds
  else
    let whole := leading.toNat + 1
    if ds.length ≤ whole then
      ds ++ List.replicate (whole - ds.length) '0' ++ if pointZero then ['.', '0'] else []
    else
      ds.take whole ++ '.' :: ds.drop whole

/-- The text of a decimal whose leading digit counts `10 ^ leading`. -/
def Layout.write (layout : Layout) (ds : List Char) (leading : Int) : List Char :=
  if layout.positional leading then positionalText layout.pointZero ds leading
  else scientificText ds leading

/-! ## 6. Numbers as text -/

open Float.Model

/-- The interval of a positive finite number in canonical form.  A power of two above the
smallest exponent has a narrow gap below. -/
def intervalOf (m : Nat) (e : Int) : Interval where
  mantissa := m
  exponent := e
  narrowBelow := m == 1 <<< 52 && Format.binary64.minExponent < e

/-- The text of a magnitude. -/
def Layout.magnitude (layout : Layout) (m : Nat) (e : Int) : List Char :=
  let d := (intervalOf m e).shortest
  let all := digitsOf d.coefficient
  layout.write (withoutTrailingZeros all) (d.exponent + all.length - 1)

/-- The sign of a negative number. -/
def signText : UnpackedFloat.Sign → List Char
  | .negative => ['-']
  | .positive => []

/-- The text of a number in a layout.  A zero keeps its sign, an undefined number has none. -/
def Layout.text (layout : Layout) (x : Float) : String :=
  match x.toModel.unpack with
  | .notANumber => "NaN"
  | .infinity s => String.ofList (signText s ++ ['i', 'n', 'f'])
  | .zero s => String.ofList (signText s ++ layout.write ['0'] 0)
  | .finite s m e _ => String.ofList (signText s ++ layout.magnitude m e)

end Decimal

end Downhill

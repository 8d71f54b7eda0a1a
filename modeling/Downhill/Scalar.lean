/-! # The numbers a descent computes with

Every formula of the library is written once, over a type `α` of numbers with the operations
listed here.  `Binary64.lean` supplies the machine numbers on which descents run;
because the formulas do not mention them, the same definitions can be read over any other
number type, exact ones included.

The class asks for no laws.  Rounded arithmetic satisfies few of them, and a formula means
exactly the operations it names, in the order in which it names them: nothing may be
reassociated.
-/

namespace Downhill

/-- A type of numbers: field operations, comparison, decimal literals and the functions that
geometry and sampling need.

`==`, `<` and `≤` are the comparisons of the number type itself, and the last two can be tested.
On rounded numbers they are not the logical equality and not a total order: an undefined result
compares to nothing.

`hypot x y` is the length of the vector with components `x` and `y`, `cos` and `sin` take an angle
in radians, and `isFinite` is true of the numbers that are neither infinite nor undefined.  Only
sampling uses the last three: `unitOfWord` is the number in `[0, 1)` that a 64-bit word stands for,
`below` is the largest number below a positive one, and `rank` bounds how often `below` can be taken
before zero is reached. -/
class Scalar (α : Type) extends Add α, Sub α, Mul α, Div α, Neg α, LE α, LT α, BEq α,
    OfScientific α where
  decLe : ∀ x y : α, Decidable (x ≤ y)
  decLt : ∀ x y : α, Decidable (x < y)
  abs : α → α
  sqrt : α → α
  hypot : α → α → α
  cos : α → α
  sin : α → α
  isFinite : α → Bool
  unitOfWord : UInt64 → α
  below : α → α
  rank : α → Nat

section Comparison

variable {α : Type} [Scalar α]

instance (priority := low) Scalar.instDecidableLe (x y : α) : Decidable (x ≤ y) :=
  Scalar.decLe x y

instance (priority := low) Scalar.instDecidableLt (x y : α) : Decidable (x < y) :=
  Scalar.decLt x y

end Comparison

end Downhill

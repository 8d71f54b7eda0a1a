import Downhill.Constraint.Projection
import Downhill.Random.Xoshiro

/-! # Drawing a feasible point

Start points are drawn from an axis-parallel rectangle, by default the displayed square with a
margin left free.  A point is drawn by rejection.  Candidates come from the rectangle, for the
parabola from its curve at a height within the rectangle, and the first admitted one of at most a
hundred is taken.  If none is admitted, a point of the disk is made from two further numbers, which
give its distance and its direction; every other constraint contains the origin, which is taken
without drawing anything.

A candidate is made of uniform numbers in closed ranges.  A word `w` stands for a number `u` in
`[0, 1)`, and `u · scale + low` is a number from `low` on.  The scale is the width of the range
divided by the largest `u`, so that the largest word reaches the upper end; should rounding carry it
past that end, the scale is lowered to the next smaller number until it no longer does.  A range is
refused if its ends are out of order or if its width is not a finite number.  Nothing is drawn from
the source then.
-/

namespace Downhill

/-! ## 1. Uniform numbers in a closed range -/

/-- Why no number can be drawn from a range: its lower end is not at or below the upper one, or its
width is not finite. -/
inductive InvalidRange where
  | empty
  | overflow
deriving DecidableEq, Repr

namespace Uniform

variable {α γ : Type} [Scalar α] [WordSource γ]

/-- The largest number a word stands for. -/
def largestUnit : α := Scalar.unitOfWord 0xffffffffffffffff

/-- The first scale, going down from the given one, with which the largest word stays at or
below `high`. -/
def fitScale (low high : α) : Nat → α → α
  | 0, scale => scale
  | fuel + 1, scale =>
    if high < scale * largestUnit + low then fitScale low high fuel (Scalar.below scale)
    else scale

/-- The scale for a closed range. -/
def scale (low high : α) : Except InvalidRange α :=
  if low ≤ high then
    let widest := (high - low) / largestUnit
    if Scalar.isFinite widest then .ok (fitScale low high (Scalar.rank widest) widest)
    else .error .overflow
  else .error .empty

/-- A number between `low` and `high`, from one word. -/
def drawBetween (low high : α) (source : γ) : Except InvalidRange (α × γ) := do
  let scale ← scale low high
  let (word, source) := WordSource.next source
  return (Scalar.unitOfWord word * scale + low, source)

/-- A number in `[0, 1)`, from one word. -/
def drawUnit (source : γ) : α × γ :=
  let (word, source) := WordSource.next source
  (Scalar.unitOfWord word, source)

end Uniform

/-! ## 2. Rectangles -/

/-- An axis-parallel rectangle, by its lower left and its upper right corner. -/
structure Bounds (α : Type) where
  min : Point α
  max : Point α
deriving DecidableEq, Repr

namespace Bounds

variable {α : Type} [Scalar α]

/-- The rectangle with the given corners, which must be finite, the first strictly below the
second in both coordinates. -/
def ofCorners (min max : Point α) : Except (InvalidSetting α) (Bounds α) :=
  if !min.isFinite || !max.isFinite || max.x ≤ min.x || max.y ≤ min.y then .error .bounds
  else .ok ⟨min, max⟩

/-- Half the side of the displayed square. -/
def domainHalfWidth : α := 50.0

/-- The part of the displayed square from which start points are drawn. -/
def samplingFraction : α := 0.95

/-- The displayed square, centred at the origin. -/
def domain : Bounds α :=
  ⟨⟨-domainHalfWidth, -domainHalfWidth⟩, ⟨domainHalfWidth, domainHalfWidth⟩⟩

/-- The rectangle scaled about its centre.  A factor that is not finite and positive leaves it
as it is. -/
def scaled (b : Bounds α) (factor : α) : Bounds α :=
  if !Scalar.isFinite factor || factor ≤ 0.0 then b
  else
    let cx := 0.5 * (b.min.x + b.max.x)
    let cy := 0.5 * (b.min.y + b.max.y)
    let hx := 0.5 * (b.max.x - b.min.x) * factor
    let hy := 0.5 * (b.max.y - b.min.y) * factor
    ⟨⟨cx - hx, cy - hy⟩, ⟨cx + hx, cy + hy⟩⟩

/-- The displayed square without its margin. -/
def sampling : Bounds α := domain.scaled samplingFraction

/-- The closed rectangle contains the point. -/
def contains (b : Bounds α) (p : Point α) : Bool :=
  b.min.x ≤ p.x && p.x ≤ b.max.x && (b.min.y ≤ p.y && p.y ≤ b.max.y)

end Bounds

/-! ## 3. Points -/

/-- A drawn point, the source after all words that went into it, and whether every candidate was
rejected. -/
structure Draw (α γ : Type) where
  point : Point α
  source : γ
  exhausted : Bool

namespace Draw

variable {α γ : Type} [Scalar α] [WordSource γ]

/-- How many candidates are tried. -/
def maxAttempts : Nat := 100

/-- A full turn in radians. -/
def fullTurn : α := 6.283185307179586

/-- One candidate: a point of the rectangle, its first coordinate drawn first, or a point of the
parabola at a height of the rectangle. -/
def candidate (constraint : Constraint α) (bounds : Bounds α) (source : γ) :
    Except InvalidRange (Point α × γ) :=
  match constraint with
  | .parabola curvature => do
    let (t, source) ← Uniform.drawBetween bounds.min.y bounds.max.y source
    return (Constraint.onParabola curvature t, source)
  | _ => do
    let (x, source) ← Uniform.drawBetween bounds.min.x bounds.max.x source
    let (y, source) ← Uniform.drawBetween bounds.min.y bounds.max.y source
    return (⟨x, y⟩, source)

/-- Whether a candidate is taken.  What its making already ensures is not tested again. -/
def admits (constraint : Constraint α) (bounds : Bounds α) (p : Point α) : Bool :=
  match constraint with
  | .unconstrained => true
  | .disk radius => decide (p.norm ≤ radius)
  | .parabola _ => bounds.min.x ≤ p.x && p.x ≤ bounds.max.x

/-- The first admitted candidate among the given number of attempts. -/
def firstAdmitted (constraint : Constraint α) (bounds : Bounds α) :
    Nat → γ → Except InvalidRange (Option (Point α) × γ)
  | 0, source => .ok (none, source)
  | attempts + 1, source => do
    let (p, source) ← candidate constraint bounds source
    if admits constraint bounds p then return (some p, source)
    else firstAdmitted constraint bounds attempts source

/-- The point taken when no candidate was admitted. -/
def fallback (constraint : Constraint α) (source : γ) : Except InvalidRange (Point α × γ) :=
  match constraint with
  | .disk radius => do
    let (u, source) ← Uniform.drawBetween 0.0 1.0 source
    let r := radius * Scalar.sqrt u
    let (v, source) := Uniform.drawUnit source
    let angle := fullTurn * v
    return (⟨r * Scalar.cos angle, r * Scalar.sin angle⟩, source)
  | _ => .ok (.origin, source)

end Draw

/-- A feasible point for the constraint, drawn from the rectangle. -/
def Constraint.draw {α γ : Type} [Scalar α] [WordSource γ] (constraint : Constraint α)
    (bounds : Bounds α) (source : γ) : Except InvalidRange (Draw α γ) := do
  match ← Draw.firstAdmitted constraint bounds Draw.maxAttempts source with
  | (some point, source) => return ⟨point, source, false⟩
  | (none, source) =>
    let (point, source) ← Draw.fallback constraint source
    return ⟨point, source, true⟩

end Downhill

import Downhill.Scalar

/-! # Points, displacements and matrices of the plane

A point is a place in the decision plane and a vector is a displacement.  The difference of two
points is a vector, and a point moves along a vector.  Gradients are vectors, so a descent step
is "move along the negative gradient, scaled".

Of linear algebra there is just enough for a Newton step and for the curvature of an objective: the
determinant with the inverse it guards, and the eigenvalues of a symmetric matrix in closed form.
-/

namespace Downhill

/-- A point of the decision plane, by its coordinates. -/
structure Point (α : Type) where
  x : α
  y : α
deriving DecidableEq, Repr

/-- A displacement in the decision plane, by its components. -/
structure Vec (α : Type) where
  x : α
  y : α
deriving DecidableEq, Repr

variable {α : Type} [Scalar α]

/-! ## 1. Displacements -/

namespace Vec

instance : Add (Vec α) := ⟨fun v w => ⟨v.x + w.x, v.y + w.y⟩⟩

instance : Neg (Vec α) := ⟨fun v => ⟨-v.x, -v.y⟩⟩

instance : HMul (Vec α) α (Vec α) := ⟨fun v s => ⟨v.x * s, v.y * s⟩⟩

/-- Componentwise comparison with the `==` of the numbers. -/
instance : BEq (Vec α) := ⟨fun v w => v.x == w.x && v.y == w.y⟩

/-- The length of a displacement. -/
def norm (v : Vec α) : α := Scalar.hypot v.x v.y

/-- The inner product. -/
def dot (v w : Vec α) : α := v.x * w.x + v.y * w.y

end Vec

/-! ## 2. Points -/

namespace Point

/-- The origin of the plane. -/
def origin : Point α := ⟨0.0, 0.0⟩

instance : HAdd (Point α) (Vec α) (Point α) := ⟨fun p v => ⟨p.x + v.x, p.y + v.y⟩⟩

instance : HSub (Point α) (Vec α) (Point α) := ⟨fun p v => ⟨p.x - v.x, p.y - v.y⟩⟩

instance : HSub (Point α) (Point α) (Vec α) := ⟨fun p q => ⟨p.x - q.x, p.y - q.y⟩⟩

/-- Coordinatewise comparison with the `==` of the numbers: a zero equals its negative, and a
point with an undefined coordinate differs from itself. -/
instance : BEq (Point α) := ⟨fun p q => p.x == q.x && p.y == q.y⟩

/-- Both coordinates are finite. -/
def isFinite (p : Point α) : Bool := Scalar.isFinite p.x && Scalar.isFinite p.y

/-- The displacement from the origin. -/
def toVec (p : Point α) : Vec α := ⟨p.x, p.y⟩

/-- The distance from the origin. -/
def norm (p : Point α) : α := Scalar.hypot p.x p.y

/-- The distance between two points. -/
def distance (p q : Point α) : α := (p - q).norm

/-- The point moved towards or away from the origin by a factor. -/
def scale (p : Point α) (s : α) : Point α := ⟨p.x * s, p.y * s⟩

/-- The point reached by going `size` times along `direction`. -/
def step (p : Point α) (direction : Vec α) (size : α) : Point α := p + direction * size

end Point

/-! ## 3. Matrices -/

/-- A two by two matrix, row by row: the first row is `a`, `b` and the second one `c`, `d`. -/
structure Mat (α : Type) where
  a : α
  b : α
  c : α
  d : α
deriving DecidableEq, Repr

namespace Mat

/-- The symmetric matrix with diagonal `a`, `d`. -/
def symmetric (a off d : α) : Mat α := ⟨a, off, off, d⟩

/-- The determinant. -/
def det (m : Mat α) : α := m.a * m.d - m.b * m.c

/-- The trace. -/
def trace (m : Mat α) : α := m.a + m.d

/-- The entries off the diagonal differ by at most `tol`. -/
def isSymmetric (m : Mat α) (tol : α) : Bool := decide (Scalar.abs (m.b - m.c) ≤ tol)

/-- The inverse, unless the determinant is not finite or smaller than `tol` in magnitude. -/
def inverse? (m : Mat α) (tol : α) : Option (Mat α) :=
  let det := m.det
  if !Scalar.isFinite det || Scalar.abs det < tol then none
  else some ⟨m.d / det, -m.b / det, -m.c / det, m.a / det⟩

/-- The smaller and the larger eigenvalue of a symmetric matrix: the mean of the diagonal, less
and plus the length of (half the difference of the diagonal, the entry off it). -/
def eigenvalues (m : Mat α) : α × α :=
  let mean := 0.5 * m.trace
  let half := Scalar.hypot (0.5 * (m.a - m.d)) m.b
  (mean - half, mean + half)

/-- The image of a vector. -/
def mulVec (m : Mat α) (v : Vec α) : Vec α := ⟨m.a * v.x + m.b * v.y, m.c * v.x + m.d * v.y⟩

end Mat

end Downhill

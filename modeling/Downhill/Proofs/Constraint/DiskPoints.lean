import Downhill.Constraint.Projection
import Downhill.Proofs.Binary64.Shrinking

/-! # Projecting onto a disk

The projection of a finite point onto a disk leaves a point of the disk as it is and draws the
others in: each coordinate is multiplied by the ratio of the radius to the norm
(`disk_projection_keeps_or_shrinks`).

Three roundings lie on the way, of the norm, of the ratio and of the product, and the first two may
leave the range of numbers.  The norm may be infinite, and then the ratio is zero; it may also be
so large that the ratio is a zero or has lost most of its digits.  None of this can let a
coordinate grow or change its sign, because all that is needed of the ratio is that it is a fraction
(`IsFraction`).

A point outside of the disk need not be led into it.  Where coordinates are very small the products
can be rounded back to the coordinates, so that the point stays where it is; an example stands at
the end.
-/

namespace Downhill.Constraint

open Binary64

variable {r : Float} {p : Point Float}

/-! ## 1. Inside and outside -/

theorem disk_check_iff : (disk r).check = .ok () ↔ r.isFinite = true ∧ 0.0 < r := by
  simp [check]

/-- The radius of a disk may be widened by nothing. -/
theorem disk_contains_iff (hr : r.isFinite = true) (hpos : 0.0 < r) (p : Point Float) :
    (disk r).contains p 0.0 = true ↔ p.norm ≤ r := by
  have hne : ¬IsZero r := fun hzero => not_lt_self 0.0 (lt_le_trans hpos hzero.le_zero)
  have hsame : p.norm ≤ r + 0.0 ↔ p.norm ≤ r := by
    rw [le_iff_unpacked, le_iff_unpacked, unpacked_add_zero hr hne]
  exact decide_eq_true_iff.trans hsame

/-- The norm of a finite point may be infinite but compares to every radius. -/
theorem norm_le_or_lt (hr : r.isFinite = true) (hp : p.isFinite = true) :
    p.norm ≤ r ∨ r < p.norm := by
  obtain ⟨hx, hy⟩ := point_isFinite_iff.mp hp
  have hnorm : p.norm.isNaN = false := hypotenuse_defined hx hy
  rw [← not_lt_iff_le (defined_of_finite hr) hnorm]
  exact (em (r < p.norm)).symm

theorem not_norm_le_of_lt (h : r < p.norm) : ¬p.norm ≤ r :=
  fun hle => not_lt_self r (lt_le_trans h hle)

/-! ## 2. The projection -/

/-- A point of the disk stays as it is. -/
theorem projectOntoDisk_of_le (h : p.norm ≤ r) : projectOntoDisk r p = p := by
  simp [projectOntoDisk, h]

/-- Any other is scaled by the ratio of the radius to its norm, which is not a zero then. -/
theorem projectOntoDisk_of_lt (hpos : 0.0 < r) (h : r < p.norm) :
    projectOntoDisk r p = p.scale (r / p.norm) := by
  have hne : (p.norm == 0.0) = false := Bool.eq_false_iff.mpr fun hzero =>
    not_lt_self 0.0 (lt_le_trans (lt_le_trans hpos (le_of_lt h)) (isZero_iff_beq.mpr hzero).le_zero)
  simp [projectOntoDisk, not_norm_le_of_lt h, hne]

/-- **Outside of the disk both coordinates shrink.** -/
theorem projectOntoDisk_shrinks (hr : r.isFinite = true) (hpos : 0.0 < r) (hp : p.isFinite = true)
    (h : r < p.norm) :
    ShrinksTo p.x (projectOntoDisk r p).x ∧ ShrinksTo p.y (projectOntoDisk r p).y := by
  obtain ⟨hx, hy⟩ := point_isFinite_iff.mp hp
  have hfactor : IsFraction (r / p.norm) := isFraction_div hr hpos h
  rw [projectOntoDisk_of_lt hpos h]
  exact ⟨hfactor.shrinks hx, hfactor.shrinks hy⟩

/-- **Projecting onto a disk keeps its points and draws the others in.**

For every finite positive radius and every finite point: if the disk contains the point without
tolerance, then its projection is the point itself, digit by digit.  Otherwise each coordinate of
the projection is finite, has the sign of the coordinate of the point, the sign of a zero included,
and has no larger magnitude.  Magnitudes above the least normal number become smaller. -/
theorem disk_projection_keeps_or_shrinks (hr : r.isFinite = true) (hpos : 0.0 < r)
    (hp : p.isFinite = true) :
    ((disk r).contains p 0.0 = true → (disk r).project p = p) ∧
    ((disk r).contains p 0.0 = false →
      ShrinksTo p.x ((disk r).project p).x ∧ ShrinksTo p.y ((disk r).project p).y) := by
  have hproject : (disk r).project p = projectOntoDisk r p := project_of_finite hp
  rw [hproject, ← Bool.not_eq_true, disk_contains_iff hr hpos]
  refine ⟨projectOntoDisk_of_le, fun hout => ?_⟩
  exact projectOntoDisk_shrinks hr hpos hp ((norm_le_or_lt hr hp).resolve_left hout)

/-- A point of a disk, and three points outside of one: the norm of the first is infinite, the ratio
of the radius to that of the second is a zero, and the third ratio has a single digit left. -/
theorem kept_and_shrunk_at_the_ends :
    ((disk 25.0).contains (⟨10.0, -20.0⟩ : Point Float) 0.0 = true ∧
      (disk 25.0).project (⟨10.0, -20.0⟩ : Point Float) = ⟨10.0, -20.0⟩) ∧
    (let p : Point Float := ⟨.ofBits 0x7fefffffffffffff, .ofBits 0xffefffffffffffff⟩
    let q := (disk 1.0).project p
    p.norm.isFinite = false ∧ (disk 1.0).contains p 0.0 = false ∧
      q = ⟨0.0, -0.0⟩ ∧ ShrinksTo p.x q.x ∧ ShrinksTo p.y q.y) ∧
    (let p : Point Float := ⟨-0.0, .ofBits 0x7fefffffffffffff⟩
    let q := (disk (.ofBits 1)).project p
    (.ofBits 1 / p.norm : Float) = 0.0 ∧ (disk (.ofBits 1)).contains p 0.0 = false ∧
      q = ⟨-0.0, 0.0⟩ ∧ ShrinksTo p.x q.x ∧ ShrinksTo p.y q.y) ∧
    (let p : Point Float := ⟨-0.75, 1.0⟩
    let q := (disk (.ofBits 1)).project p
    (.ofBits 1 / p.norm : Float) = .ofBits 1 ∧ (disk (.ofBits 1)).contains p 0.0 = false ∧
      q = ⟨.ofBits 0x8000000000000001, .ofBits 1⟩ ∧ ShrinksTo p.x q.x ∧ ShrinksTo p.y q.y) := by
  refine ⟨⟨by decide +kernel, ?_⟩, ⟨by decide +kernel, by decide +kernel, by decide +kernel, ?_⟩,
    ⟨by decide +kernel, by decide +kernel, by decide +kernel, ?_⟩,
    by decide +kernel, by decide +kernel, by decide +kernel, ?_⟩
  · exact (disk_projection_keeps_or_shrinks (by decide +kernel) (by decide +kernel)
      (by decide +kernel)).1 (by decide +kernel)
  all_goals exact (disk_projection_keeps_or_shrinks (by decide +kernel) (by decide +kernel)
    (by decide +kernel)).2 (by decide +kernel)

/-- At the least normal number nothing need shrink: this point is outside of the disk, and its
projection is the point itself. -/
example :
    let p : Point Float := ⟨leastNormal, leastNormal⟩
    let r : Float := .ofBits 0x0016a09e667f3bcc
    (disk r).contains p 0.0 = false ∧ (disk r).project p = p := by decide +kernel

end Downhill.Constraint

import Downhill.Proofs.Constraint.DiskPoints

/-! # Where projections are finite

The projection of a finite point onto a disk is finite (`isFinite_projectOntoDisk`): it is the point
itself or has smaller coordinates, even where the norm of the point is infinite.

The projection onto a parabola need not be.  It is a point of the curve at one of the heights that
Newton's iteration visits, the first of them at which the squared distance is smallest.  Squared
distances are never undefined, so an infinite one loses against every finite one, and a finite one
belongs to a finite point of the curve.  If all of them are infinite, the height of the point
itself is taken, and the curve may be out of range there (`isFinite_projectOntoParabola_iff`).

`isFinite_project_iff` says of all constraints together where the projection of a finite point is
finite.
-/

namespace Downhill.Constraint

open Binary64

variable {k t : Float} {p : Point Float}

/-! ## 1. The disk -/

/-- **The projection of a finite point onto a disk is finite.** -/
theorem isFinite_projectOntoDisk {r : Float} (hc : (disk r).check = .ok ())
    (hp : p.isFinite = true) : (projectOntoDisk r p).isFinite = true := by
  obtain ⟨hr, hpos⟩ := disk_check_iff.mp hc
  rcases norm_le_or_lt hr hp with h | h
  · rwa [projectOntoDisk_of_le h]
  · obtain ⟨hx, hy⟩ := projectOntoDisk_shrinks hr hpos hp h
    exact point_isFinite_iff.mpr ⟨hx.isFinite, hy.isFinite⟩

/-! ## 2. Heights and squared distances -/

/-- Newton's iteration visits finite heights only. -/
theorem isFinite_of_mem_newton {g : Cubic Float} {budget : Nat} {t u : Float}
    (h : u ∈ g.newton budget t) : u.isFinite = true := by
  induction budget generalizing t with
  | zero => cases h
  | succ budget ih =>
    unfold Cubic.newton at h
    split_ifs at h with hslope
    · cases h
    · dsimp only at h
      split_ifs at h with hnext
      · rcases List.mem_cons.mp h with rfl | h
        · exact hnext
        · exact ih h
      · cases h

/-- A squared distance to a point of the curve is not undefined and not negative. -/
theorem zero_le_squaredDistance (hk : k.isFinite = true) (hp : p.isFinite = true)
    (ht : t.isFinite = true) : 0.0 ≤ squaredDistance k p t := by
  obtain ⟨hx, hy⟩ := point_isFinite_iff.mp hp
  have hdx : (p.x - k * t * t).isNaN = false := sub_defined hx (mul_mul_self_defined hk ht)
  have hdy : (p.y - t).isNaN = false := sub_defined hy (defined_of_finite ht)
  exact zero_le_add (zero_le_mul_self hdx) (zero_le_mul_self hdy)

/-- A finite squared distance belongs to a finite point of the curve. -/
theorem isFinite_onParabola (h : (squaredDistance k p t).isFinite = true) :
    (onParabola k t).isFinite = true := by
  obtain ⟨hx, hy⟩ := finite_of_add h
  exact point_isFinite_iff.mpr
    ⟨(finite_of_sub (finite_of_mul hx).1).2, (finite_of_sub (finite_of_mul hy).1).2⟩

/-! ## 3. The least of several values -/

theorem firstLeast_cons_of_lt {f : Float → Float} {t best : Float} (ts : List Float)
    (h : f t < f best) : firstLeast f best (t :: ts) = firstLeast f t ts := by
  simp [firstLeast, h]

theorem firstLeast_cons_of_not_lt {f : Float → Float} {t best : Float} (ts : List Float)
    (h : ¬f t < f best) : firstLeast f best (t :: ts) = firstLeast f best ts := by
  simp [firstLeast, h]

theorem firstLeast_mem (f : Float → Float) (ts : List Float) (best : Float) :
    firstLeast f best ts ∈ best :: ts := by
  induction ts generalizing best with
  | nil => exact List.mem_singleton_self best
  | cons t ts ih =>
    by_cases h : f t < f best
    · rw [firstLeast_cons_of_lt ts h]
      exact List.mem_cons_of_mem _ (ih t)
    · rw [firstLeast_cons_of_not_lt ts h]
      rcases List.mem_cons.mp (ih best) with h | h
      · exact List.mem_cons.mpr (Or.inl h)
      · exact List.mem_cons_of_mem _ (List.mem_cons_of_mem _ h)

/-- Where no value is undefined or negative, the least of them is finite if any is. -/
theorem isFinite_firstLeast_iff {f : Float → Float} {ts : List Float} {best : Float}
    (h : ∀ u ∈ best :: ts, 0.0 ≤ f u) :
    (f (firstLeast f best ts)).isFinite = true ↔ ∃ u ∈ best :: ts, (f u).isFinite = true := by
  induction ts generalizing best with
  | nil => simp [firstLeast]
  | cons t ts ih =>
    obtain ⟨hbest, ht, hts⟩ : 0.0 ≤ f best ∧ 0.0 ≤ f t ∧ ∀ u ∈ ts, 0.0 ≤ f u := by simpa using h
    by_cases hlt : f t < f best
    · rw [firstLeast_cons_of_lt ts hlt, ih (by simpa using ⟨ht, hts⟩)]
      have hfinite := finite_of_nonneg_of_lt ht hlt
      exact iff_of_true ⟨t, by simp, hfinite⟩ ⟨t, by simp, hfinite⟩
    · rw [firstLeast_cons_of_not_lt ts hlt, ih (by simpa using ⟨hbest, hts⟩)]
      -- `t` adds nothing: with a finite value it would have replaced an infinite one
      have hskip : (f t).isFinite = true → (f best).isFinite = true := fun hfinite => by
        by_contra hinfinite
        exact hlt (lt_of_not_finite hbest hinfinite hfinite)
      simp only [List.mem_cons, exists_eq_or_imp]
      tauto

/-- The least value is the first one, or it is finite. -/
theorem firstLeast_eq_or {f : Float → Float} {ts : List Float} {best : Float}
    (h : ∀ u ∈ best :: ts, 0.0 ≤ f u) :
    firstLeast f best ts = best ∨ (f (firstLeast f best ts)).isFinite = true := by
  induction ts generalizing best with
  | nil => exact Or.inl rfl
  | cons t ts ih =>
    obtain ⟨hbest, ht, hts⟩ : 0.0 ≤ f best ∧ 0.0 ≤ f t ∧ ∀ u ∈ ts, 0.0 ≤ f u := by simpa using h
    by_cases hlt : f t < f best
    · have hnonneg : ∀ u ∈ t :: ts, 0.0 ≤ f u := by simpa using ⟨ht, hts⟩
      rw [firstLeast_cons_of_lt ts hlt]
      exact Or.inr ((isFinite_firstLeast_iff hnonneg).mpr
        ⟨t, by simp, finite_of_nonneg_of_lt ht hlt⟩)
    · rw [firstLeast_cons_of_not_lt ts hlt]
      exact ih (by simpa using ⟨hbest, hts⟩)

/-! ## 4. The parabola -/

/-- The height that is taken is the one of the point or one that the iteration visits. -/
theorem isFinite_parabolaHeight (k : Float) (hp : p.isFinite = true) :
    (parabolaHeight k p).isFinite = true := by
  rcases List.mem_cons.mp (firstLeast_mem (squaredDistance k p)
    ((cubic k p).newton newtonBudget p.y) p.y) with h | h
  · rw [parabolaHeight, h]
    exact (point_isFinite_iff.mp hp).2
  · exact isFinite_of_mem_newton h

/-- **Where the projection of a finite point onto a parabola is finite.** -/
theorem isFinite_projectOntoParabola_iff (hk : k.isFinite = true) (hp : p.isFinite = true) :
    (projectOntoParabola k p).isFinite = true ↔
      (onParabola k p.y).isFinite = true ∨
        ∃ t ∈ (cubic k p).newton newtonBudget p.y, (squaredDistance k p t).isFinite = true := by
  have hy := (point_isFinite_iff.mp hp).2
  have hnonneg : ∀ u ∈ p.y :: (cubic k p).newton newtonBudget p.y,
      0.0 ≤ squaredDistance k p u := by
    intro u hu
    rcases List.mem_cons.mp hu with rfl | hu
    · exact zero_le_squaredDistance hk hp hy
    · exact zero_le_squaredDistance hk hp (isFinite_of_mem_newton hu)
  have hleast := isFinite_firstLeast_iff hnonneg
  change (onParabola k (firstLeast _ _ _)).isFinite = true ↔ _
  constructor
  · intro h
    rcases firstLeast_eq_or hnonneg with heq | hfinite
    · rw [heq] at h
      exact Or.inl h
    · obtain ⟨u, hu, hfinite⟩ := hleast.mp hfinite
      rcases List.mem_cons.mp hu with rfl | hu
      · exact Or.inl (isFinite_onParabola hfinite)
      · exact Or.inr ⟨u, hu, hfinite⟩
  · rintro (hseed | ⟨u, hu, hfinite⟩)
    · rcases firstLeast_eq_or hnonneg with heq | hfinite
      · rwa [heq]
      · exact isFinite_onParabola hfinite
    · exact isFinite_onParabola (hleast.mpr ⟨u, List.mem_cons_of_mem _ hu, hfinite⟩)

/-! ## 5. All constraints -/

/-- Projecting the point does not lead out of range.  For a parabola: the curve is in range at the
height of the point, or the squared distance is at one of the heights that Newton's iteration
visits. -/
def KeepsRange : Constraint Float → Point Float → Prop
  | .parabola k, p =>
    (onParabola k p.y).isFinite = true ∨
      ∃ t ∈ (cubic k p).newton newtonBudget p.y, (squaredDistance k p t).isFinite = true
  | _, _ => True

/-- **Where projections of finite points are finite.**  The second coordinate is finite in any case,
and the first one is not undefined. -/
theorem isFinite_project_iff {constraint : Constraint Float} (hc : constraint.check = .ok ())
    (hp : p.isFinite = true) :
    ((constraint.project p).isFinite = true ↔ constraint.KeepsRange p) ∧
    (constraint.project p).y.isFinite = true ∧ (constraint.project p).x.isNaN = false := by
  rw [project_of_finite hp]
  cases constraint with
  | unconstrained =>
    obtain ⟨hx, hy⟩ := point_isFinite_iff.mp hp
    exact ⟨iff_of_true hp trivial, hy, defined_of_finite hx⟩
  | disk r =>
    have hfinite := isFinite_projectOntoDisk hc hp
    obtain ⟨hx, hy⟩ := point_isFinite_iff.mp hfinite
    exact ⟨iff_of_true hfinite trivial, hy, defined_of_finite hx⟩
  | parabola k =>
    have hk : k.isFinite = true := by simpa [check] using hc
    have hheight := isFinite_parabolaHeight k hp
    exact ⟨isFinite_projectOntoParabola_iff hk hp, hheight, mul_mul_self_defined hk hheight⟩

end Downhill.Constraint

import Downhill.Proofs.Binary64.Order
import Downhill.Proofs.Constraint.FinitePoints

/-! # The height that a parabola projection takes

The projection of `p` onto a parabola looks at finitely many heights.  The first one is the height
of `p`, each further one is Newton's next height after the one before, and the list ends where there
is no next height or where the budget is spent (`Visited`).

Of these it takes the one with the least squared distance to `p`, and the first of several
(`LeastAt`).  The choice compares rounded numbers with `<`.  An undefined squared distance would
compare to nothing and could neither be replaced nor replace another; but squared distances to the
curve are infinite at worst (`zero_le_squaredDistance`), so the comparisons are those of a linear
order and the invariant of the choice is that of any search for a minimum.
-/

namespace Downhill.Constraint

open Binary64

/-! ## 1. The heights that are looked at -/

/-- Newton's next height after `t`, unless the iteration ends there: the slope nearly vanishes or
the next height is not finite. -/
def Cubic.next? {α : Type} [Scalar α] (g : Cubic α) (t : α) : Option α :=
  if Scalar.abs (g.slope t) < slopeTolerance then none
  else if Scalar.isFinite (t - g.value t / g.slope t) then some (t - g.value t / g.slope t)
  else none

variable {g : Cubic Float} {t u : Float}

/-- The iteration goes on with the next height or ends. -/
theorem newton_succ (budget : Nat) (t : Float) :
    g.newton (budget + 1) t = match g.next? t with
      | none => []
      | some u => u :: g.newton budget u := by
  simp only [Cubic.newton, Cubic.next?]
  split_ifs <;> rfl

/-- The heights are visited one after the other: each but the first is the next one after the height
before it, and they go on as long as there is a next one and the budget, against which the first
height does not count, allows it. -/
structure Visited (g : Cubic Float) (budget : Nat) (ts : List Float) : Prop where
  steps : ts.IsChain fun t u => g.next? t = some u
  length_le : ts.length ≤ budget + 1
  ended : ts.length = budget + 1 ∨ ∀ t ∈ ts.getLast?, g.next? t = none

/-- **Newton's iteration visits these heights.** -/
theorem visited_newton (g : Cubic Float) (budget : Nat) (t : Float) :
    Visited g budget (t :: g.newton budget t) := by
  induction budget generalizing t with
  | zero => exact ⟨.singleton t, le_rfl, Or.inl rfl⟩
  | succ budget ih =>
    rw [newton_succ]
    cases hnext : g.next? t with
    | none => exact ⟨.singleton t, by simp, Or.inr (by simp [hnext])⟩
    | some u =>
      obtain ⟨hsteps, hlength, hended⟩ := ih u
      refine ⟨hsteps.cons_cons hnext, by simpa using hlength, ?_⟩
      simpa using hended

/-! ## 2. The first of the least values -/

/-- The entry `t` at place `j` has the least value in the list, and all entries before it have a
greater one. -/
structure LeastAt (f : Float → Float) (ts : List Float) (j : Nat) (t : Float) : Prop where
  value_at : ts[j]? = some t
  least : ∀ u ∈ ts, f t ≤ f u
  first : ∀ i < j, ∀ u, ts[i]? = some u → f t < f u

variable {f : Float → Float} {best : Float} {ts : List Float}

/-- An entry with a greater value in front moves the place by one. -/
theorem LeastAt.cons {j : Nat} (h : LeastAt f ts j t) (hlt : f t < f u) :
    LeastAt f (u :: ts) (j + 1) t where
  value_at := by simpa using h.value_at
  least := by
    intro v hv
    rcases List.mem_cons.mp hv with rfl | hv
    · exact le_of_lt hlt
    · exact h.least v hv
  first := by
    intro i hi v hv
    cases i with
    | zero =>
      obtain rfl : u = v := by simpa using hv
      exact hlt
    | succ i => exact h.first i (by omega) v (by simpa using hv)

/-- An entry that is not less than the first one may stand right behind it. -/
theorem LeastAt.insert_second {j : Nat} (h : LeastAt f (best :: ts) j t) (hle : f best ≤ f u) :
    ∃ j, LeastAt f (best :: u :: ts) j t := by
  cases j with
  | zero =>
    obtain rfl : best = t := by simpa using h.value_at
    refine ⟨0, rfl, ?_, fun i hi => absurd hi (Nat.not_lt_zero i)⟩
    intro v hv
    rcases List.mem_cons.mp hv with rfl | hv
    · exact h.least v List.mem_cons_self
    rcases List.mem_cons.mp hv with rfl | hv
    · exact hle
    · exact h.least v (List.mem_cons_of_mem _ hv)
  | succ j =>
    have hbest : f t < f best := h.first 0 (Nat.succ_pos j) best rfl
    have hrest : LeastAt f ts j t := {
      value_at := by simpa using h.value_at
      least := fun v hv => h.least v (List.mem_cons_of_mem _ hv)
      first := fun i hi v hv => h.first (i + 1) (by omega) v (by simpa using hv) }
    exact ⟨j + 2, (hrest.cons (lt_le_trans hbest hle)).cons hbest⟩

/-- **Where no value is undefined, the choice is the first of the least values.** -/
theorem exists_leastAt_firstLeast (h : ∀ u ∈ best :: ts, (f u).isNaN = false) :
    ∃ j, LeastAt f (best :: ts) j (firstLeast f best ts) := by
  induction ts generalizing best with
  | nil =>
    refine ⟨0, rfl, fun u hu => ?_, fun i hi => absurd hi (Nat.not_lt_zero i)⟩
    obtain rfl : u = best := by simpa using hu
    exact le_refl_of_defined (h u hu)
  | cons t ts ih =>
    obtain ⟨hbest, hothers⟩ := List.forall_mem_cons.mp h
    obtain ⟨ht, hts⟩ := List.forall_mem_cons.mp hothers
    by_cases hlt : f t < f best
    · rw [firstLeast_cons_of_lt ts hlt]
      obtain ⟨j, hj⟩ := ih hothers
      have hchoice : f (firstLeast f t ts) < f best :=
        le_lt_trans (hj.least t List.mem_cons_self) hlt
      exact ⟨j + 1, hj.cons hchoice⟩
    · rw [firstLeast_cons_of_not_lt ts hlt]
      obtain ⟨j, hj⟩ := ih (List.forall_mem_cons.mpr ⟨hbest, hts⟩)
      exact hj.insert_second ((not_lt_iff_le ht hbest).mp hlt)

/-! ## 3. The projection -/

variable {k : Float} {p : Point Float}

theorem isFinite_of_looked_at (hp : p.isFinite = true) {g : Cubic Float} {budget : Nat}
    (h : t ∈ p.y :: g.newton budget p.y) : t.isFinite = true := by
  rcases List.mem_cons.mp h with rfl | h
  · exact (point_isFinite_iff.mp hp).2
  · exact isFinite_of_mem_newton h

theorem squaredDistance_defined (hk : k.isFinite = true) (hp : p.isFinite = true)
    (ht : t.isFinite = true) : (squaredDistance k p t).isNaN = false :=
  (defined_of_le (zero_le_squaredDistance hk hp ht)).2

/-- **The projection of a finite point onto a parabola is the first of the nearest curve points
that were looked at.**

The heights that are looked at begin with the one of the point and follow Newton's iteration, at
most ten steps long; all of them are finite.  None of their squared distances to the point is
undefined.  The projection is the curve point at the first of the heights with the least squared
distance, so it is not farther than the curve point at the height of the point itself; and neither
of its coordinates is undefined. -/
theorem projection_is_first_nearest (hk : k.isFinite = true) (hp : p.isFinite = true) :
    let ts := p.y :: (cubic k p).newton newtonBudget p.y
    let q := (parabola k).project p
    Visited (cubic k p) 10 ts ∧
    (∀ t ∈ ts, t.isFinite = true ∧ (squaredDistance k p t).isNaN = false) ∧
    (∃ j t, LeastAt (squaredDistance k p) ts j t ∧ q = onParabola k t ∧
      squaredDistance k p t ≤ squaredDistance k p p.y) ∧
    q.x.isNaN = false ∧ q.y.isNaN = false := by
  intro ts q
  have hdefined (t : Float) (ht : t ∈ ts) :
      t.isFinite = true ∧ (squaredDistance k p t).isNaN = false := by
    have hfinite := isFinite_of_looked_at hp ht
    exact ⟨hfinite, squaredDistance_defined hk hp hfinite⟩
  have hq : q = onParabola k (parabolaHeight k p) := project_of_finite hp
  obtain ⟨j, hj⟩ := exists_leastAt_firstLeast fun t ht => (hdefined t ht).2
  have hheight : (parabolaHeight k p).isFinite = true := isFinite_parabolaHeight k hp
  refine ⟨visited_newton _ _ _, hdefined, ⟨j, parabolaHeight k p, hj, hq, ?_⟩, ?_, ?_⟩
  · exact hj.least p.y List.mem_cons_self
  · rw [hq]
    exact mul_mul_self_defined hk hheight
  · rw [hq]
    exact defined_of_finite hheight

/-- A point beside the curve `x = 2 y²`, for which a height that Newton's iteration visits is nearer
than its own. -/
theorem first_nearest_beside_the_curve :
    (2.0 : Float).isFinite = true ∧ (⟨5.0, 3.0⟩ : Point Float).isFinite = true ∧
    (let ts := 3.0 :: (cubic 2.0 (⟨5.0, 3.0⟩ : Point Float)).newton newtonBudget 3.0
    ∃ j t, LeastAt (squaredDistance 2.0 ⟨5.0, 3.0⟩) ts j t ∧
      (parabola 2.0).project ⟨5.0, 3.0⟩ = onParabola 2.0 t) ∧
    squaredDistance 2.0 ⟨5.0, 3.0⟩ ((parabola 2.0).project (⟨5.0, 3.0⟩ : Point Float)).y <
      squaredDistance 2.0 ⟨5.0, 3.0⟩ 3.0 := by
  have hk : (2.0 : Float).isFinite = true := by decide +kernel
  have hp : (⟨5.0, 3.0⟩ : Point Float).isFinite = true := by decide +kernel
  obtain ⟨-, -, ⟨j, t, hleast, hproject, -⟩, -⟩ := projection_is_first_nearest hk hp
  exact ⟨hk, hp, ⟨j, t, hleast, hproject⟩, by decide +kernel⟩

end Downhill.Constraint

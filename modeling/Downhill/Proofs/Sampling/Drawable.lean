import Downhill.Proofs.Binary64.Limits
import Downhill.Random.Xoshiro
import Downhill.Session.Control

/-! # Rectangles that can be drawn from

A range of numbers is refused before anything is drawn from it, if its ends are out of order or its
width, divided by the largest number a word stands for, is not finite.  The rectangles that the
library makes ask less of their sides.

* `Bounds.Made`: the rectangles there are, made from corners, named, or scaled any number of times.
* `Bounds.Made.ordered`: a side with a finite width has its ends in order.  Scaling keeps this,
  although rounding moves both ends: it goes down and up from one rounded centre by one rounded
  distance, and rounding keeps the order.  So the order never decides, only the width does.
* `draw_ok_iff`: a point is drawn exactly if the sides that are drawn from have widths that fit,
  whatever the source.
-/

namespace Downhill

open Binary64

/-! ## 1. Ranges -/

namespace Uniform

variable {γ : Type} [WordSource γ]

/-- The ends are in order as far as the width can tell. -/
def Ordered (low high : Float) : Prop := (high - low).isFinite = true → low ≤ high

/-- The width of the range is finite, also after division by the largest number of a word. -/
def Fits (low high : Float) : Prop :=
  Scalar.isFinite ((high - low) / largestUnit) = true

instance (low high : Float) : Decidable (Fits low high) := inferInstanceAs (Decidable (_ = true))

theorem Ordered.of_le {low high : Float} (h : low ≤ high) : Ordered low high := fun _ => h

theorem Ordered.le_of_fits {low high : Float} (h : Ordered low high) (hfits : Fits low high) :
    low ≤ high := h (finite_of_div hfits)

/-- A range in order has a scale exactly if its width fits. -/
theorem scale_ok_iff {low high : Float} (h : Ordered low high) :
    (∃ s, scale low high = .ok s) ↔ Fits low high := by
  unfold scale
  dsimp only
  constructor
  · rintro ⟨s, hs⟩
    split_ifs at hs with _ hfits
    exact hfits
  · intro hfits
    rw [if_pos (h.le_of_fits hfits)]
    exact ⟨_, if_pos hfits⟩

/-- A number is drawn from a range in order exactly if its width fits, whatever the source. -/
theorem drawBetween_ok_iff {low high : Float} (h : Ordered low high) (source : γ) :
    (∃ v, drawBetween low high source = .ok v) ↔ Fits low high := by
  rw [← scale_ok_iff h]
  exact exists_bind_eq_ok_iff_left fun s => ⟨_, rfl⟩

end Uniform

/-! ## 2. Rectangles -/

namespace Bounds

open Downhill.Uniform

/-- The sides of the rectangle are in order as far as their widths can tell. -/
structure Ordered (b : Bounds Float) : Prop where
  x : Uniform.Ordered b.min.x b.max.x
  y : Uniform.Ordered b.min.y b.max.y

/-- The rectangles that the library makes. -/
inductive Made : Bounds Float → Prop where
  | ofCorners {min max : Point Float} {b : Bounds Float} (h : ofCorners min max = .ok b) : Made b
  | domain : Made domain
  | sampling : Made sampling
  | scaled {b : Bounds Float} (h : Made b) (factor : Float) : Made (b.scaled factor)

/-- Going down and up from one centre by one positive multiple of half the width leaves a side in
order. -/
theorem ordered_scaled {low high factor : Float} (h : Uniform.Ordered low high)
    (hfactor : 0.0 < factor) :
    Uniform.Ordered (0.5 * (low + high) - 0.5 * (high - low) * factor)
      (0.5 * (low + high) + 0.5 * (high - low) * factor) := by
  intro hwidth
  obtain ⟨hup, hdown⟩ := finite_of_sub hwidth
  obtain ⟨hcentre, hdistance⟩ := finite_of_add hup
  obtain ⟨hhalf, hfactorfinite⟩ := finite_of_mul hdistance
  obtain ⟨-, hdifference⟩ := finite_of_mul hhalf
  obtain ⟨hhigh, hlow⟩ := finite_of_sub hdifference
  have hpos : 0.0 ≤ 0.5 * (high - low) * factor :=
    zero_le_mul
      (zero_le_mul (by decide +kernel) (zero_le_sub (h hdifference) hlow hhigh) rfl hdifference)
      (le_of_lt hfactor) hhalf hfactorfinite
  rw [le_iff_toRat rfl hdistance, toRat_zero] at hpos
  exact (roundsTo_sub hcentre hdistance).le (roundsTo_add hcentre hdistance) (by linarith)

theorem Ordered.scaled {b : Bounds Float} (h : b.Ordered) (factor : Float) :
    (b.scaled factor).Ordered := by
  unfold Bounds.scaled
  split_ifs with hskip
  · exact h
  · obtain ⟨hfinite, hpos⟩ : factor.isFinite = true ∧ ¬factor ≤ 0.0 := by simpa using hskip
    have hfactor : 0.0 < factor := lt_of_not_le hfinite rfl hpos
    exact ⟨ordered_scaled h.x hfactor, ordered_scaled h.y hfactor⟩

/-- The corners are finite, and the first is strictly below the second in both coordinates. -/
structure Proper (b : Bounds Float) : Prop where
  min : b.min.x.isFinite = true ∧ b.min.y.isFinite = true
  max : b.max.x.isFinite = true ∧ b.max.y.isFinite = true
  x : b.min.x < b.max.x
  y : b.min.y < b.max.y

/-- Corners that are accepted are proper. -/
theorem proper_of_ofCorners {min max : Point Float} {b : Bounds Float}
    (h : ofCorners min max = .ok b) : b.Proper := by
  unfold ofCorners at h
  split_ifs at h with hskip
  cases h
  simp only [Bool.or_eq_true, Bool.not_eq_true', decide_eq_true_eq, not_or,
    Bool.not_eq_false] at hskip
  obtain ⟨⟨⟨hmin, hmax⟩, hx⟩, hy⟩ := hskip
  rw [point_isFinite_iff] at hmin hmax
  exact ⟨hmin, hmax, lt_of_not_le hmax.1 hmin.1 hx, lt_of_not_le hmax.2 hmin.2 hy⟩

theorem ordered_of_ofCorners {min max : Point Float} {b : Bounds Float}
    (h : ofCorners min max = .ok b) : b.Ordered :=
  have hb := proper_of_ofCorners h
  ⟨.of_le (le_of_lt hb.x), .of_le (le_of_lt hb.y)⟩

/-- **A side with a finite width has its ends in order.** -/
theorem Made.ordered {b : Bounds Float} (h : b.Made) : b.Ordered := by
  induction h with
  | ofCorners h => exact ordered_of_ofCorners h
  | domain => exact ⟨.of_le (by decide +kernel), .of_le (by decide +kernel)⟩
  | sampling => exact ⟨.of_le (by decide +kernel), .of_le (by decide +kernel)⟩
  | scaled _ factor ih => exact ih.scaled factor

/-- The sides that are drawn from for the constraint have widths that fit. -/
def Drawable (b : Bounds Float) : Constraint Float → Prop
  | .parabola _ => Fits b.min.y b.max.y
  | _ => Fits b.min.x b.max.x ∧ Fits b.min.y b.max.y

instance (b : Bounds Float) : (constraint : Constraint Float) → Decidable (b.Drawable constraint)
  | .parabola _ => inferInstanceAs (Decidable (Fits b.min.y b.max.y))
  | .unconstrained => inferInstanceAs (Decidable (_ ∧ _))
  | .disk _ => inferInstanceAs (Decidable (_ ∧ _))

/-- The displayed square and its inner part can be drawn from for every constraint. -/
theorem drawable_named (constraint : Constraint Float) :
    domain.Drawable constraint ∧ sampling.Drawable constraint := by
  have hdomain : domain.Drawable .unconstrained := by decide +kernel
  have hsampling : sampling.Drawable .unconstrained := by decide +kernel
  cases constraint with
  | unconstrained => exact ⟨hdomain, hsampling⟩
  | disk radius => exact ⟨hdomain, hsampling⟩
  | parabola curvature => exact ⟨hdomain.2, hsampling.2⟩

end Bounds

/-! ## 3. Points -/

namespace Draw

variable {γ : Type} [WordSource γ] {b : Bounds Float}

/-- A candidate can be made exactly if the sides that it takes its coordinates from have widths that
fit. -/
theorem candidate_ok_iff (hb : b.Ordered) (constraint : Constraint Float) (source : γ) :
    (∃ v, candidate constraint b source = .ok v) ↔ b.Drawable constraint := by
  -- the second coordinate is drawn from its own side, wherever the first one has left the source
  have hsecond (v : Float × γ) : (∃ w, (do
      let (y, source) ← Uniform.drawBetween b.min.y b.max.y v.2
      return ((⟨v.1, y⟩ : Point Float), source)) = .ok w) ↔ Uniform.Fits b.min.y b.max.y :=
    (exists_bind_eq_ok_iff_left fun w => ⟨_, rfl⟩).trans (Uniform.drawBetween_ok_iff hb.y v.2)
  have hpair := (exists_bind_eq_ok_iff hsecond).trans
    (and_congr_left' (Uniform.drawBetween_ok_iff hb.x source))
  cases constraint with
  | unconstrained => exact hpair
  | disk radius => exact hpair
  | parabola curvature =>
    exact (exists_bind_eq_ok_iff_left fun v => ⟨_, rfl⟩).trans
      (Uniform.drawBetween_ok_iff hb.y source)

/-- Attempts succeed together with their first candidate: what decides is the rectangle. -/
theorem firstAdmitted_ok (hb : b.Ordered) {constraint : Constraint Float}
    (h : b.Drawable constraint) (attempts : Nat) (source : γ) :
    ∃ v, firstAdmitted constraint b attempts source = .ok v := by
  induction attempts generalizing source with
  | zero => exact ⟨_, rfl⟩
  | succ attempts ih =>
    obtain ⟨⟨p, source'⟩, hp⟩ := (candidate_ok_iff hb constraint source).mpr h
    unfold firstAdmitted
    simp only [hp, bind, Except.bind]
    split_ifs
    · exact ⟨_, rfl⟩
    · exact ih source'

/-- The point that is taken when no candidate was admitted can always be made. -/
theorem fallback_ok (constraint : Constraint Float) (source : γ) :
    ∃ v, fallback constraint source = .ok v := by
  cases constraint with
  | disk radius =>
    have hunit : Uniform.Ordered 0.0 1.0 := .of_le (by decide +kernel)
    have hdraw := (Uniform.drawBetween_ok_iff hunit source).mpr (by decide +kernel)
    exact (exists_bind_eq_ok_iff_left fun v => ⟨_, rfl⟩).mpr hdraw
  | unconstrained => exact ⟨_, rfl⟩
  | parabola curvature => exact ⟨_, rfl⟩

end Draw

/-- **A point is drawn exactly if the sides that are drawn from have widths that fit.** -/
theorem Constraint.draw_ok_iff {γ : Type} [WordSource γ] {b : Bounds Float} (hb : b.Ordered)
    (constraint : Constraint Float) (source : γ) :
    (∃ d, constraint.draw b source = .ok d) ↔ b.Drawable constraint := by
  refine (exists_bind_eq_ok_iff_left ?_).trans ?_
  · -- with a point or without, the rest succeeds
    rintro ⟨found, source'⟩
    cases found with
    | some p => exact ⟨_, rfl⟩
    | none =>
      exact (exists_bind_eq_ok_iff_left fun v => ⟨_, rfl⟩).mpr (Draw.fallback_ok constraint source')
  · constructor
    · rintro ⟨v, hv⟩
      obtain ⟨p, hp, -⟩ := bind_eq_ok_iff.mp hv
      exact (Draw.candidate_ok_iff hb constraint source).mp ⟨p, hp⟩
    · intro h
      exact Draw.firstAdmitted_ok hb h Draw.maxAttempts source

/-! ## 4. Random starts -/

namespace Session

variable {σ γ : Type} [Scheduler σ] [WordSource γ]

theorem randomStart_ok_iff {s : Session Float σ γ} :
    (∃ r, s.randomStart = .ok r) ↔ ∃ d, s.config.constraint.draw s.bounds s.source = .ok d :=
  exists_bind_eq_ok_iff_left fun _ => ⟨_, rfl⟩

/-- **When a point can be drawn from a rectangle of the library.**

However the rectangle was made, and for every constraint and every source of words, a point is
drawn exactly if the sides that are drawn from have widths that fit, and then so is a random start
of every session with this rectangle and this constraint, in any state.  The displayed square and
its inner part can always be drawn from. -/
theorem drawn_from_made_bounds {b : Bounds Float} (hb : b.Made) (constraint : Constraint Float) :
    (∀ source : γ, (∃ d, constraint.draw b source = .ok d) ↔ b.Drawable constraint) ∧
    (∀ s : Session Float σ γ, s.bounds = b → s.config.constraint = constraint →
      ((∃ r, s.randomStart = .ok r) ↔ b.Drawable constraint)) ∧
    Bounds.domain.Drawable constraint ∧ Bounds.sampling.Drawable constraint := by
  have hdraw (source : γ) := Constraint.draw_ok_iff hb.ordered constraint source
  refine ⟨hdraw, ?_, Bounds.drawable_named constraint⟩
  rintro s rfl rfl
  exact randomStart_ok_iff.trans (hdraw s.source)

/-- A disk and a square that has been scaled twice. -/
theorem drawn_from_scaled_twice :
    (∃ d, (Constraint.disk (25.0 : Float)).draw ((Bounds.domain.scaled 3.0).scaled 0.5)
      (Xoshiro.ofSeed 7) = .ok d) := by
  have hmade : ((Bounds.domain.scaled 3.0).scaled 0.5).Made := .scaled (.scaled .domain 3.0) 0.5
  exact ((drawn_from_made_bounds (σ := VirtualClock) hmade (.disk 25.0)).1 _).mpr
    (by decide +kernel)

/-- The corners of the whole plane of numbers. -/
def wholePlane : Bounds Float :=
  ⟨⟨.ofBits 0xffefffffffffffff, .ofBits 0xffefffffffffffff⟩,
    ⟨.ofBits 0x7fefffffffffffff, .ofBits 0x7fefffffffffffff⟩⟩

/-- **Two rectangles that cannot be drawn from**: the one of all finite points, whose corners are
accepted, and the displayed square scaled by `2 ^ 1018`, whose corners are still finite.  A session
that has the first one cannot be sent to a random start. -/
theorem not_drawn_from_whole_plane :
    Bounds.ofCorners wholePlane.min wholePlane.max = .ok wholePlane ∧
    Constraint.draw (.unconstrained : Constraint Float) wholePlane (Xoshiro.ofSeed 7) =
      .error .overflow ∧
    Constraint.draw (.unconstrained : Constraint Float)
      (Bounds.domain.scaled (.ofBits 0x7f90000000000000)) (Xoshiro.ofSeed 7) = .error .overflow ∧
    ∃ s : Session Float VirtualClock Xoshiro,
      bundled .default ⟨25.0, 15.0⟩ (Xoshiro.ofSeed 7) = .ok s ∧
      (s.withBounds wholePlane).randomStart = .error .overflow :=
  ⟨by decide +kernel, rfl, rfl, _, rfl, rfl⟩

end Session

end Downhill

import Downhill.Proofs.Constraint.FinitePoints
import Downhill.Proofs.Objective.Gradient
import Downhill.Proofs.Session.Coherence

/-! # Steps at the end of the range of numbers

A step size may be so large that the proposed point has an infinite or undefined coordinate.  What
such a step reports depends on the constraint (`Session.overflowing_step_of_play`).

* Without a constraint the proposed point is accepted as it is.  The test is not met there, so the
  step never ends a descent.
* The projections onto a disk and onto a parabola give up on such a point and take the origin in
  its place.  The test is made at the origin, which is the minimum of every form: the step ends the
  descent as converged, provided only that the gradient at the origin can be computed.

The accepted point of a step with a finite proposal is finite as well, but for parabolas on which
every squared distance that is looked at is out of range (`Session.projections_in_range`).

`Linked.of_mem` says what is known of a single turn of a history: it is sound, and a history leads
to the session before it.
-/

namespace Downhill

open Binary64

/-! ## 1. Single turns of a history -/

section Turns

variable {α σ γ : Type} [Scalar α] [Scheduler σ] [WordSource γ]

/-- A turn of a history is sound, and a history leads to it. -/
theorem Linked.of_mem {s s' : Session α σ γ} {ts : List (Turn α σ γ)} (h : Linked s ts s')
    {t : Turn α σ γ} (ht : t ∈ ts) : t.Sound ∧ ∃ past, Linked s past t.before := by
  induction h with
  | nil => cases ht
  | @cons u ts s' hu h ih =>
    rcases List.mem_cons.mp ht with rfl | ht
    · exact ⟨hu, [], .nil _⟩
    · obtain ⟨hsound, past, hpast⟩ := ih ht
      exact ⟨hsound, u :: past, .cons hu hpast⟩

/-- A step of a history is the next one of a coherent session with the objective of the first. -/
theorem Session.step_of_play {scheduler : σ} {s₀ : Session α σ γ} (h₀ : Opened scheduler s₀)
    {cs : List (Command α)} {r : Reply (List (Answer α)) α σ γ} (h : s₀.play cs = .ok r)
    {t : Turn α σ γ} (ht : t ∈ s₀.turns cs) {e : Event α} (he : t.event = some e) :
    t.before.Coherent ∧ t.before.objective = s₀.objective ∧ t.before.Takes e t.after := by
  obtain ⟨hsound, past, hpast⟩ := (linked_turns h).of_mem ht
  obtain ⟨hs, hconfig, -⟩ := h₀.fresh
  exact ⟨(hs.coherent hconfig).linked hpast, objective_linked hpast, hsound.takes he⟩

end Turns

/-! ## 2. One step -/

variable {σ γ : Type}

namespace Session

/-- What a step reports whose proposed point is not finite.  Without a constraint that point is
accepted, with one the origin is.  Only at the origin can the test be met, and it is if the gradient
there can be computed. -/
structure Overflows (q : QuadraticForm Float) (s : Session Float σ γ) (e : Event Float) :
    Prop where
  accepted : s.config.constraint = .unconstrained → e.point = e.trial
  replaced : s.config.constraint ≠ .unconstrained → e.point = .origin
  converged : e.converged = true ↔ s.config.constraint ≠ .unconstrained ∧
    (2.0 * q.a).isFinite = true ∧ (2.0 * q.c).isFinite = true

/-- **A step whose proposed point is not finite converges at the origin or not at all.** -/
theorem overflows_nextEvent {q : QuadraticForm Float} {s : Session Float σ γ}
    (hq : s.objective = q.objective) (hfinite : s.config.threshold.isFinite = true)
    (hpos : 0.0 < s.config.threshold) (h : s.nextEvent.trial.isFinite = false) :
    s.Overflows q s.nextEvent := by
  have htest : s.nextEvent.converged = true ↔
      q.objective.slope s.nextEvent.point ≤ s.config.threshold := by
    rw [← hq]
    exact decide_eq_true_iff
  by_cases hc : s.config.constraint = .unconstrained
  · have hpoint : s.nextEvent.point = s.nextEvent.trial := by
      change s.config.constraint.project _ = _
      rw [hc]
      rfl
    refine ⟨fun _ => hpoint, absurd hc, ?_⟩
    rw [htest, hpoint]
    exact iff_of_false (q.not_slope_le h hfinite) fun h => h.1 hc
  · have hpoint : s.nextEvent.point = .origin := Constraint.project_of_not_finite hc h
    refine ⟨fun h => absurd h hc, fun _ => hpoint, ?_⟩
    rw [htest, hpoint, q.slope_origin_le_iff hpos isZero_origin.1 isZero_origin.2]
    exact (and_iff_right hc).symm

end Session

/-! ## 3. Every step of a history that leaves the range -/

namespace Session

variable [Scheduler σ] [WordSource γ]

/-- **A step that leaves the range of numbers never counts as convergence, unless a constraint
brings it back to the origin.**

Whatever is done to a session that was opened with a quadratic form, a step of it whose proposed
point is not finite has the following event.  Without a constraint the point is accepted and the
step has not converged.  With a disk or a parabola the accepted point is the origin, and the step
has converged exactly if `2 a` and `2 c` are finite.  The mode after the step says "converged"
exactly if the event does. -/
theorem overflowing_step_of_play {scheduler : σ} {q : QuadraticForm Float}
    {s₀ : Session Float σ γ} (h₀ : Opened scheduler s₀) (hq : s₀.objective = q.objective)
    {cs : List (Command Float)} {r : Reply (List (Answer Float)) Float σ γ}
    (h : s₀.play cs = .ok r) {t : Turn Float σ γ} (ht : t ∈ s₀.turns cs) {e : Event Float}
    (he : t.event = some e) (htrial : e.trial.isFinite = false) :
    (t.before.config.constraint = .unconstrained → e.point = e.trial ∧ e.converged = false) ∧
    (t.before.config.constraint ≠ .unconstrained → e.point = .origin ∧
      (e.converged = true ↔ (2.0 * q.a).isFinite = true ∧ (2.0 * q.c).isFinite = true)) ∧
    (t.after.mode = .converged ↔ e.converged = true) := by
  obtain ⟨hcoherent, hobjective, htakes⟩ := step_of_play h₀ h ht he
  obtain rfl := htakes.event
  obtain ⟨hfinite, hpos⟩ := hcoherent.threshold
  have hover := overflows_nextEvent (hobjective.trans hq) hfinite hpos htrial
  refine ⟨fun hc => ⟨hover.accepted hc, ?_⟩, fun hc => ⟨hover.replaced hc, ?_⟩, htakes.converged⟩
  · exact Bool.eq_false_iff.mpr fun hconv => (hover.converged.mp hconv).1 hc
  · rw [hover.converged, and_iff_right hc]

/-- A step of a given history, with what follows of it from a test, as in `exists_played`. -/
theorem exists_played_step {scheduler : σ}
    {made : Except (InvalidSetting Float) (Session Float σ γ)}
    (hopened : ∀ {s}, made = .ok s → Opened scheduler s) {cs : List (Command Float)}
    {P : Turn Float σ γ → Event Float → Prop}
    (Q : Session Float σ γ → Turn Float σ γ → Event Float → Prop) {s₀ : Session Float σ γ}
    {r : Reply (List (Answer Float)) Float σ γ} {t : Turn Float σ γ} {e : Event Float}
    (hs : made = .ok s₀) (hr : s₀.play cs = .ok r) (ht : t ∈ s₀.turns cs) (he : t.event = some e)
    (hQ : Q s₀ t e) (h : ∀ s₀ r t e, Opened scheduler s₀ → s₀.play cs = .ok r → t ∈ s₀.turns cs →
      t.event = some e → Q s₀ t e → P t e) :
    ∃ s₀ r t e, made = .ok s₀ ∧ s₀.play cs = .ok r ∧ t ∈ s₀.turns cs ∧ t.event = some e ∧ P t e :=
  ⟨s₀, r, t, e, hs, hr, ht, he, h s₀ r t e (hopened hs) hr ht he hQ⟩

/-- The longest step there is. -/
def longestStep : StepRule Float := .gradientDescent (.ofBits 0x7fefffffffffffff)

/-- Without a constraint the longest step from a point of the built-in form does not converge. -/
theorem longest_step_unconstrained :
    ∃ (s₀ : Session Float VirtualClock Xoshiro)
      (r : Reply (List (Answer Float)) Float VirtualClock Xoshiro)
      (t : Turn Float VirtualClock Xoshiro) (e : Event Float),
      ofSettings QuadraticForm.bundled.objective .unconstrained longestStep 1e-6 ⟨25.0, 15.0⟩ .new
        (Xoshiro.ofSeed 7) = .ok s₀ ∧
      s₀.play [.step] = .ok r ∧ t ∈ s₀.turns [.step] ∧ t.event = some e ∧
      e.trial.isFinite = false ∧ e.point = e.trial ∧ e.converged = false ∧
      t.after.mode ≠ .converged := by
  refine exists_played_step .ofSettings
    (fun s₀ t e => s₀.objective = QuadraticForm.bundled.objective ∧ e.trial.isFinite = false ∧
      t.before.config.constraint = .unconstrained) rfl rfl (.head _) rfl
    ⟨rfl, by decide +kernel, rfl⟩ ?_
  rintro s₀ r t e hs hr ht he ⟨hq, htrial, hc⟩
  obtain ⟨hfree, -, hmode⟩ := overflowing_step_of_play hs hq hr ht he htrial
  obtain ⟨hpoint, hconverged⟩ := hfree hc
  refine ⟨htrial, hpoint, hconverged, fun h => ?_⟩
  rw [hmode.mp h] at hconverged
  cases hconverged

/-- **In a disk the same step converges.**  The proposed point is infinite, the origin is accepted
in its place, and the session says "converged". -/
theorem longest_step_in_disk_converges :
    ∃ (s₀ : Session Float VirtualClock Xoshiro)
      (r : Reply (List (Answer Float)) Float VirtualClock Xoshiro) (e : Event Float),
      ofSettings QuadraticForm.bundled.objective (.disk 25.0) longestStep 1e-6 ⟨25.0, 15.0⟩ .new
        (Xoshiro.ofSeed 7) = .ok s₀ ∧
      s₀.play [.step] = .ok r ∧ r.value = [.step (some e)] ∧
      e.trial.isFinite = false ∧ e.point = .origin ∧ e.converged = true ∧
      r.next.mode = .converged :=
  ⟨_, _, _, rfl, rfl, rfl, by decide +kernel, by decide +kernel, by decide +kernel,
    by decide +kernel⟩

/-! ## 4. Every step of a history from a finite proposal -/

/-- **Where a finite point has a finite projection.**

For every constraint that passes its check and every finite point, the projection is finite exactly
if it keeps in range: always without a constraint and for a disk, and for a parabola if the curve
is in range at the height of the point or a squared distance at a visited height is.  The second
coordinate is always finite and the first one never undefined.  So it is with the steps of every
history: the point accepted for a finite proposal is finite exactly if its projection keeps in
range. -/
theorem projections_in_range :
    (∀ (constraint : Constraint Float) (p : Point Float), constraint.check = .ok () →
      p.isFinite = true →
        ((constraint.project p).isFinite = true ↔ constraint.KeepsRange p) ∧
        (constraint.project p).y.isFinite = true ∧ (constraint.project p).x.isNaN = false) ∧
    ∀ (scheduler : σ) (s₀ : Session Float σ γ) (cs : List (Command Float))
      (r : Reply (List (Answer Float)) Float σ γ), Opened scheduler s₀ → s₀.play cs = .ok r →
      ∀ t ∈ s₀.turns cs, ∀ e, t.event = some e → e.trial.isFinite = true →
        (e.point.isFinite = true ↔ t.before.config.constraint.KeepsRange e.trial) ∧
        e.point.y.isFinite = true ∧ e.point.x.isNaN = false := by
  refine ⟨fun constraint p hc hp => Constraint.isFinite_project_iff hc hp, ?_⟩
  intro scheduler s₀ cs r h₀ h t ht e he htrial
  obtain ⟨hcoherent, -, htakes⟩ := step_of_play h₀ h ht he
  obtain rfl := htakes.event
  exact Constraint.isFinite_project_iff hcoherent.constraint htrial

/-- A step onto a wide parabola, and a point near the axis of a narrow one. -/
theorem projections_near_the_axis :
    (∃ (s₀ : Session Float VirtualClock Xoshiro)
      (r : Reply (List (Answer Float)) Float VirtualClock Xoshiro)
      (t : Turn Float VirtualClock Xoshiro) (e : Event Float),
      ofSettings QuadraticForm.bundled.objective (.parabola 0.05) .default 1e-6 ⟨25.0, 15.0⟩ .new
        (Xoshiro.ofSeed 7) = .ok s₀ ∧
      s₀.play [.step] = .ok r ∧ t ∈ s₀.turns [.step] ∧ t.event = some e ∧
      e.trial.isFinite = true ∧ e.point.isFinite = true) ∧
    ((Constraint.parabola 1e300).project (⟨1.0, 1e-10⟩ : Point Float)).isFinite = true := by
  obtain ⟨hproject, hstep⟩ := projections_in_range (σ := VirtualClock) (γ := Xoshiro)
  constructor
  · refine exists_played_step .ofSettings
      (fun _ t e => e.trial.isFinite = true ∧ t.before.config.constraint = .parabola 0.05 ∧
        (Constraint.onParabola 0.05 e.trial.y).isFinite = true) rfl rfl (.head _) rfl
      (by decide +kernel) ?_
    rintro s₀ r t e hs hr ht he ⟨htrial, hc, hcurve⟩
    refine ⟨htrial, (hstep _ _ _ _ hs hr t ht e he htrial).1.mpr ?_⟩
    rw [hc]
    exact Or.inl hcurve
  · exact (hproject (.parabola 1e300) ⟨1.0, 1e-10⟩ (by decide +kernel) (by decide +kernel)).1.mpr
      (Or.inl (by decide +kernel))

/-- **A finite point whose projection is infinite**, far from the axis of a narrow parabola. -/
theorem projection_out_of_range :
    (Constraint.parabola (1e300 : Float)).check = .ok () ∧
    (⟨0.0, 1e10⟩ : Point Float).isFinite = true ∧
    ((Constraint.parabola 1e300).project (⟨0.0, 1e10⟩ : Point Float)).isFinite = false :=
  ⟨by decide +kernel, by decide +kernel, by decide +kernel⟩

end Session

end Downhill

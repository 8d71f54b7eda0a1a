import Downhill.Proofs.Constraint.CurvePoints
import Downhill.Proofs.Sampling.Ranges

/-! # The first acceptable candidate

A draw reads its source word by word.  Whatever it decides on the way, the candidates that it may
look at are determined beforehand: the sequence of words is cut into pieces of equal length, one or
two words, and each piece is a candidate (`Draw.cut`).  What a draw does can so be said without its
loop (`Constraint.draw_takes_first_acceptable`): it takes the first candidate that lies in the
rectangle and is feasible without tolerance, and the source it leaves begins right behind it.

The draw itself tests less than that.  It never asks whether a number lies in the range it was
drawn from, or whether a point made on the curve lies on it.  Both hold for every word and every
rectangle (`Draw.cut_admits_iff`).
-/

namespace Downhill

open Binary64

/-! ## 1. The words of a source -/

namespace WordSource

variable {γ : Type} [WordSource γ] (source : γ)

/-- The source after the given number of words. -/
def after : Nat → γ
  | 0 => source
  | n + 1 => (next (after n)).2

/-- The word with the given number, counted from zero. -/
def word (n : Nat) : UInt64 := (next (after source n)).1

end WordSource

/-- On a tape the words stand as they were written, so every sequence of words is that of a
source. -/
theorem Tape.after_word (t : Tape) (n : Nat) :
    WordSource.after t n = ⟨t.word, t.drawn + n⟩ ∧
      WordSource.word t n = t.word (t.drawn + n) := by
  have hafter : WordSource.after t n = ⟨t.word, t.drawn + n⟩ := by
    induction n with
    | zero => rfl
    | succ n ih =>
      rw [WordSource.after, ih]
      rfl
  exact ⟨hafter, by rw [WordSource.word, hafter]; rfl⟩

/-! ## 2. Candidates -/

namespace Draw

open WordSource Downhill.Uniform

/-- How many words a candidate takes. -/
def width : Constraint Float → Nat
  | .parabola _ => 1
  | _ => 2

/-- The candidate with the given number that is cut from a sequence of words. -/
def cut (constraint : Constraint Float) (b : Bounds Float) (words : Nat → UInt64) (i : Nat) :
    Except InvalidRange (Point Float) :=
  match constraint with
  | .parabola k => do
    let t ← number b.min.y b.max.y (words i)
    return Constraint.onParabola k t
  | _ => do
    let x ← number b.min.x b.max.x (words (2 * i))
    let y ← number b.min.y b.max.y (words (2 * i + 1))
    return ⟨x, y⟩

/-- The point lies in the rectangle and is feasible without tolerance. -/
def Acceptable (constraint : Constraint Float) (b : Bounds Float) (p : Point Float) : Prop :=
  b.contains p = true ∧ constraint.contains p 0.0 = true

instance (constraint : Constraint Float) (b : Bounds Float) (p : Point Float) :
    Decidable (Acceptable constraint b p) := inferInstanceAs (Decidable (_ ∧ _))

variable {γ : Type} [WordSource γ] {constraint : Constraint Float} {b : Bounds Float}

theorem drawBetween_after (low high : Float) (source : γ) (n : Nat) :
    drawBetween low high (after source n) =
      (number low high (word source n)).map (·, after source (n + 1)) :=
  drawBetween_eq (after source n)

/-- **A draw cuts its candidates from the words of its source**, one after the other. -/
theorem candidate_after (source : γ) (i : Nat) :
    candidate constraint b (after source (width constraint * i)) =
      (cut constraint b (word source) i).map
        (·, after source (width constraint * (i + 1))) := by
  have hpair : (do
      let (x, source) ← drawBetween b.min.x b.max.x (after source (2 * i))
      let (y, source) ← drawBetween b.min.y b.max.y source
      return ((⟨x, y⟩ : Point Float), source)) = Except.map (·, after source (2 * (i + 1))) (do
      let x ← number b.min.x b.max.x (word source (2 * i))
      let y ← number b.min.y b.max.y (word source (2 * i + 1))
      return (⟨x, y⟩ : Point Float)) := by
    rw [drawBetween_after]
    cases number b.min.x b.max.x (word source (2 * i)) with
    | error e => rfl
    | ok x =>
      have hsecond := drawBetween_after b.min.y b.max.y source (2 * i + 1)
      simp only [Except.map, bind, Except.bind, hsecond]
      cases number b.min.y b.max.y (word source (2 * i + 1)) <;> rfl
  cases constraint with
  | unconstrained => exact hpair
  | disk radius => exact hpair
  | parabola k =>
    simp only [candidate, cut, width, one_mul, drawBetween_after]
    cases number b.min.y b.max.y (word source i) <;> rfl

/-! ## 3. Which candidates are admitted -/

/-- Two words give a point of the rectangle. -/
theorem point_in_rectangle (hb : b.Proper) (hx : Fits b.min.x b.max.x)
    (hy : Fits b.min.y b.max.y) (v w : UInt64) :
    ∃ x y, number b.min.x b.max.x v = .ok x ∧ number b.min.y b.max.y w = .ok y ∧
      b.contains ⟨x, y⟩ = true := by
  obtain ⟨x, hv, hxlow, hxhigh⟩ := number_between hb.min.1 hb.max.1 hb.x hx v
  obtain ⟨y, hw, hylow, hyhigh⟩ := number_between hb.min.2 hb.max.2 hb.y hy w
  exact ⟨x, y, hv, hw, by simp [Bounds.contains, hxlow, hxhigh, hylow, hyhigh]⟩

/-- A point made on the curve lies on it without tolerance if its first coordinate lies between
finite numbers. -/
theorem parabola_contains {k t low high : Float} (hlow : low.isFinite = true)
    (hhigh : high.isFinite = true) (ht : t.isFinite = true)
    (h : low ≤ (Constraint.onParabola k t).x ∧ (Constraint.onParabola k t).x ≤ high) :
    (Constraint.parabola k).contains (Constraint.onParabola k t) 0.0 = true :=
  have hx := finite_of_between hlow hhigh h.1 h.2
  (Constraint.onCurve_onParabola (point_isFinite_iff.mpr ⟨hx, ht⟩)).contains

/-- **Every candidate can be made, and it is admitted exactly if it is acceptable.** -/
theorem cut_admits_iff (hc : constraint.check = .ok ()) (hb : b.Proper)
    (hd : b.Drawable constraint) (words : Nat → UInt64) (i : Nat) :
    ∃ p, cut constraint b words i = .ok p ∧
      (admits constraint b p = true ↔ Acceptable constraint b p) := by
  cases constraint with
  | unconstrained =>
    obtain ⟨x, y, hx, hy, hin⟩ :=
      point_in_rectangle hb hd.1 hd.2 (words (2 * i)) (words (2 * i + 1))
    exact ⟨⟨x, y⟩, by simp only [cut, hx, hy]; rfl, iff_of_true rfl ⟨hin, rfl⟩⟩
  | disk radius =>
    obtain ⟨x, y, hx, hy, hin⟩ :=
      point_in_rectangle hb hd.1 hd.2 (words (2 * i)) (words (2 * i + 1))
    refine ⟨⟨x, y⟩, by simp only [cut, hx, hy]; rfl, ?_⟩
    obtain ⟨hr, hpos⟩ := Constraint.disk_check_iff.mp hc
    rw [Acceptable, Constraint.disk_contains_iff hr hpos, and_iff_right hin]
    exact decide_eq_true_iff
  | parabola k =>
    obtain ⟨t, ht, hlow, hhigh⟩ := number_between hb.min.2 hb.max.2 hb.y hd (words i)
    refine ⟨Constraint.onParabola k t, by simp only [cut, ht]; rfl, ?_⟩
    have hfinite : t.isFinite = true := finite_of_between hb.min.2 hb.max.2 hlow hhigh
    have hin : b.contains (Constraint.onParabola k t) = true ↔
        admits (.parabola k) b (Constraint.onParabola k t) = true := by
      simp [Bounds.contains, admits, Constraint.onParabola, hlow, hhigh]
    rw [Acceptable, hin]
    refine (and_iff_left_of_imp fun h => ?_).symm
    exact parabola_contains hb.min.1 hb.max.1 hfinite (by simpa [admits] using h)

/-! ## 4. Attempts -/

section Attempts

variable {c : Nat → Point Float} {source : γ}

/-- One attempt looks at one candidate. -/
theorem firstAdmitted_succ (hcut : ∀ i, cut constraint b (word source) i = .ok (c i))
    (attempts j : Nat) :
    firstAdmitted constraint b (attempts + 1) (after source (width constraint * j)) =
      if admits constraint b (c j) then
        .ok (some (c j), after source (width constraint * (j + 1)))
      else firstAdmitted constraint b attempts (after source (width constraint * (j + 1))) := by
  rw [firstAdmitted, candidate_after, hcut]
  rfl

/-- The attempts from candidate `j` on end with the first admitted one, if it is among them. -/
theorem firstAdmitted_found (hcut : ∀ i, cut constraint b (word source) i = .ok (c i)) {i : Nat}
    (hadmits : admits constraint b (c i) = true) :
    ∀ {attempts j : Nat}, j ≤ i → i < j + attempts →
      (∀ k, j ≤ k → k < i → admits constraint b (c k) ≠ true) →
      firstAdmitted constraint b attempts (after source (width constraint * j)) =
        .ok (some (c i), after source (width constraint * (i + 1)))
  | 0, j, hle, hlt, _ => absurd hle (by omega)
  | attempts + 1, j, hle, hlt, hfirst => by
    rw [firstAdmitted_succ hcut]
    rcases hle.eq_or_lt with rfl | hlater
    · exact if_pos hadmits
    · rw [if_neg (hfirst j le_rfl hlater)]
      exact firstAdmitted_found hcut hadmits hlater (by omega)
        fun k hk => hfirst k (by omega)

/-- They take all their words if none of them is admitted. -/
theorem firstAdmitted_none (hcut : ∀ i, cut constraint b (word source) i = .ok (c i)) :
    ∀ {attempts j : Nat}, (∀ k, j ≤ k → k < j + attempts → admits constraint b (c k) ≠ true) →
      firstAdmitted constraint b attempts (after source (width constraint * j)) =
        .ok (none, after source (width constraint * (j + attempts)))
  | 0, j, _ => rfl
  | attempts + 1, j, hnone => by
    rw [firstAdmitted_succ hcut, if_neg (hnone j le_rfl (by omega)),
      firstAdmitted_none hcut fun k hk hlt => hnone k (by omega) (by omega)]
    rw [add_right_comm, add_assoc]

end Attempts

/-- The point of a disk at a distance and in a direction given by two numbers between zero and
one. -/
def inDisk (radius u v : Float) : Point Float :=
  let r := radius * u.sqrt
  ⟨r * cosine (fullTurn * v), r * sine (fullTurn * v)⟩

/-- The fallback of a disk takes two words. -/
theorem fallback_disk (radius : Float) (source : γ) (n : Nat) :
    ∃ u, number 0.0 1.0 (word source n) = .ok u ∧ 0.0 ≤ u ∧ u ≤ 1.0 ∧
      fallback (.disk radius) (after source n) =
        .ok (inDisk radius u (unitOfWord (word source (n + 1))), after source (n + 2)) := by
  obtain ⟨u, hu, hlow, hhigh⟩ : ∃ u, number 0.0 1.0 (word source n) = .ok u ∧ 0.0 ≤ u ∧ u ≤ 1.0 :=
    number_between rfl rfl (by decide +kernel) (by decide +kernel) (word source n)
  refine ⟨u, hu, hlow, hhigh, ?_⟩
  rw [fallback, drawBetween_after, hu]
  rfl

/-- What a draw gives where no candidate is acceptable.  Without a constraint there is no such case,
a parabola gives the origin, and a disk a point made from the two words behind the candidates. -/
def FallsBack (source : γ) (result : Except InvalidRange (Draw Float γ)) :
    Constraint Float → Prop
  | .unconstrained => False
  | .parabola k => result = .ok ⟨.origin, after source 100, true⟩ ∧
      (Constraint.parabola k).contains .origin 0.0 = true
  | .disk radius => ∃ u, number 0.0 1.0 (word source 200) = .ok u ∧ (0.0 ≤ u ∧ u ≤ 1.0) ∧
      unitOfWord (word source 201) < 1.0 ∧
      result = .ok ⟨inDisk radius u (unitOfWord (word source 201)), after source 202, true⟩

end Draw

/-! ## 5. Draws -/

section Draws

open WordSource Draw

variable {γ : Type} [WordSource γ] {constraint : Constraint Float} {b : Bounds Float}

/-- **A draw takes the first acceptable candidate.**

For every proper constraint, every rectangle with finite corners in strict order whose widths fit,
and every source of words, let `c` be the candidates that are cut from the words.  All of them can
be made, and one is admitted exactly if it lies in the rectangle and is feasible without tolerance.
If the first such candidate is among the first hundred, it is drawn, and the source is left right
behind its words.  Otherwise the words of a hundred candidates are taken; then a parabola gives the
origin, which is feasible without tolerance, and a disk gives a point made from exactly two further
words.  Without a constraint a draw always takes the first candidate and two words. -/
theorem Constraint.draw_takes_first_acceptable (hc : constraint.check = .ok ()) (hb : b.Proper)
    (hd : b.Drawable constraint) (source : γ) :
    ∃ c : Nat → Point Float,
      (∀ i, cut constraint b (word source) i = .ok (c i) ∧
        (admits constraint b (c i) = true ↔ Acceptable constraint b (c i))) ∧
      (∀ i < maxAttempts, IsLeast {j | Acceptable constraint b (c j)} i →
        constraint.draw b source =
          .ok ⟨c i, after source (width constraint * (i + 1)), false⟩) ∧
      ((∀ i < maxAttempts, ¬Acceptable constraint b (c i)) →
        FallsBack source (constraint.draw b source) constraint) ∧
      (constraint = .unconstrained →
        constraint.draw b source = .ok ⟨c 0, after source 2, false⟩) := by
  choose c hcandidates using cut_admits_iff hc hb hd (word source)
  have hcut (i : Nat) : cut constraint b (word source) i = .ok (c i) := (hcandidates i).1
  have hiff (i : Nat) : admits constraint b (c i) = true ↔ Acceptable constraint b (c i) :=
    (hcandidates i).2
  have hfound : ∀ i < maxAttempts, IsLeast {j | Acceptable constraint b (c j)} i →
      constraint.draw b source =
        .ok ⟨c i, after source (width constraint * (i + 1)), false⟩ := by
    intro i hi hleast
    have hscan : firstAdmitted constraint b maxAttempts source =
        .ok (some (c i), after source (width constraint * (i + 1))) :=
      firstAdmitted_found hcut ((hiff i).mpr hleast.1) (j := 0) (Nat.zero_le i) (by omega)
        fun k _ hk hadmits => absurd (hleast.2 ((hiff k).mp hadmits)) (not_le.mpr hk)
    rw [Constraint.draw, hscan]
    rfl
  refine ⟨c, hcandidates, hfound, ?_, ?_⟩
  · intro hnone
    have hscan : firstAdmitted constraint b maxAttempts source =
        .ok (none, after source (width constraint * (0 + maxAttempts))) :=
      firstAdmitted_none hcut (j := 0) fun k _ hk hadmits =>
        hnone k (by omega) ((hiff k).mp hadmits)
    cases constraint with
    | unconstrained => exact hnone 0 (by decide) ((hiff 0).mp rfl)
    | parabola k =>
      have hk : k.isFinite = true := by simpa [Constraint.check] using hc
      refine ⟨?_, (Constraint.onCurve_origin hk).contains⟩
      rw [Constraint.draw, hscan]
      rfl
    | disk radius =>
      obtain ⟨u, hu, hlow, hhigh, hfallback⟩ := fallback_disk radius source 200
      refine ⟨u, hu, ⟨hlow, hhigh⟩, unitOfWord_lt_one _, ?_⟩
      change firstAdmitted _ b maxAttempts source = .ok (none, after source 200) at hscan
      rw [Constraint.draw, hscan]
      simp only [bind, Except.bind, hfallback]
      rfl
  · rintro rfl
    exact hfound 0 (by decide) ⟨(hiff 0).mp rfl, fun j _ => Nat.zero_le j⟩

/-- Two pairs of words: the first one gives a corner of a rectangle, the second one its centre. -/
def cornerThenCentre : Tape :=
  .cycle #[0xffffffffffffffff, 0xffffffffffffffff, 0x8000000000000000, 0x8000000000000000]

/-- A rectangle to the left of the curve `x = y²`. -/
def leftOfCurve : Bounds Float := ⟨⟨-9.0, 1.0⟩, ⟨-4.0, 2.0⟩⟩

/-- A tape of zeros gives the lower end of every range, so all candidates are the same curve point
beside the rectangle. -/
theorem cut_leftOfCurve (i : Nat) :
    cut (.parabola 1.0) leftOfCurve (word (Tape.cycle #[0])) i = .ok ⟨1.0, 1.0⟩ := by
  have hword : word (Tape.cycle #[0]) i = 0 := by
    rw [(Tape.after_word _ i).2]
    simp [Tape.cycle]
  have hheight : Downhill.Uniform.number 1.0 2.0 0 = .ok 1.0 := by decide +kernel
  change (do
    let t ← Downhill.Uniform.number 1.0 2.0 (word (Tape.cycle #[0]) i)
    return Constraint.onParabola 1.0 t) = _
  rw [hword, hheight]
  rfl

/-- A disk that contains the centre of a square but not its corners, and a parabola that does not
meet its rectangle. -/
theorem Constraint.centre_and_origin_drawn :
    (∃ p, (Constraint.disk 10.0).draw .sampling cornerThenCentre =
        .ok ⟨p, ⟨cornerThenCentre.word, 4⟩, false⟩ ∧
      Acceptable (.disk 10.0) .sampling p) ∧
    (Constraint.parabola 1.0).draw leftOfCurve (Tape.cycle #[0]) =
      .ok ⟨.origin, ⟨(Tape.cycle #[0]).word, 100⟩, true⟩ := by
  constructor
  · have hdisk : (Constraint.disk (10.0 : Float)).check = .ok () := by decide +kernel
    have hproper : (Bounds.sampling : Bounds Float).Proper :=
      ⟨by decide +kernel, by decide +kernel, by decide +kernel, by decide +kernel⟩
    obtain ⟨c, hc, hfound, -⟩ := Constraint.draw_takes_first_acceptable hdisk hproper
      (by decide +kernel) cornerThenCentre
    have hcorner : cut (.disk 10.0) .sampling (word cornerThenCentre) 0 = .ok ⟨47.5, 47.5⟩ := by
      decide +kernel
    have hcentre : cut (.disk 10.0) .sampling (word cornerThenCentre) 1 =
        .ok ⟨.ofBits 0x3d00000000000000, .ofBits 0x3d00000000000000⟩ := by
      decide +kernel
    have hfirst : ¬Acceptable (.disk 10.0) .sampling (c 0) := by
      rw [Except.ok.inj ((hc 0).1.symm.trans hcorner)]
      decide +kernel
    have hsecond : Acceptable (.disk 10.0) .sampling (c 1) := by
      rw [Except.ok.inj ((hc 1).1.symm.trans hcentre)]
      decide +kernel
    have hleast : IsLeast {j | Acceptable (.disk 10.0) .sampling (c j)} 1 := by
      refine ⟨hsecond, fun j hj => Nat.pos_of_ne_zero ?_⟩
      rintro rfl
      exact hfirst hj
    refine ⟨c 1, ?_, hsecond⟩
    rw [hfound 1 (by decide) hleast]
    rfl
  · have hparabola : (Constraint.parabola (1.0 : Float)).check = .ok () := by decide +kernel
    have hproper : leftOfCurve.Proper :=
      ⟨by decide +kernel, by decide +kernel, by decide +kernel, by decide +kernel⟩
    obtain ⟨c, hc, -, hnone, -⟩ := Constraint.draw_takes_first_acceptable hparabola hproper
      (by decide +kernel) (Tape.cycle #[0])
    obtain ⟨hdraw, -⟩ := hnone fun i _ => by
      rw [Except.ok.inj ((hc i).1.symm.trans (cut_leftOfCurve i))]
      decide +kernel
    rw [hdraw, (Tape.after_word _ 100).1]
    rfl

end Draws

end Downhill

import Downhill.Plane
import Downhill.Time.Duration

/-! # Refused settings

Every number a caller can choose is checked before it takes effect.  A refusal names the setting
and carries the value that was refused.
-/

namespace Downhill

/-- A setting that was refused, with the value given for it.

Step sizes, radii and convergence thresholds must be finite and positive, a curvature finite, and a
damping factor must lie in `(0, 1]`.  The first point of a descent must be finite.  The corners of a
rectangle must be finite, the lower one below the upper one.  The interval of a timed run must not
be zero. -/
inductive InvalidSetting (α : Type) where
  | stepSize (value : α)
  | damping (value : α)
  | radius (value : α)
  | curvature (value : α)
  | threshold (value : α)
  | initialPoint (point : Point α)
  | bounds
  | interval (value : Duration)
deriving DecidableEq, Repr

/-- Two computations in a row succeed together exactly if each does. -/
theorem bind_eq_ok_iff {ε β β' : Type} {x : Except ε β} {f : β → Except ε β'} {c : β'} :
    x >>= f = .ok c ↔ ∃ b, x = .ok b ∧ f b = .ok c := by
  cases x with
  | error e => simp [bind, Except.bind]
  | ok b => simp [bind, Except.bind]

/-- If it does not depend on the result of the first whether the second succeeds, the two are
judged apart. -/
theorem exists_bind_eq_ok_iff {ε β β' : Type} {x : Except ε β} {f : β → Except ε β'} {q : Prop}
    (hf : ∀ b, (∃ c, f b = .ok c) ↔ q) : (∃ c, x >>= f = .ok c) ↔ (∃ b, x = .ok b) ∧ q := by
  constructor
  · rintro ⟨c, hc⟩
    obtain ⟨b, hb, hc⟩ := bind_eq_ok_iff.mp hc
    exact ⟨⟨b, hb⟩, (hf b).mp ⟨c, hc⟩⟩
  · rintro ⟨⟨b, hb⟩, hq⟩
    obtain ⟨c, hc⟩ := (hf b).mpr hq
    exact ⟨c, bind_eq_ok_iff.mpr ⟨b, hb, hc⟩⟩

/-- A second computation that always succeeds makes no difference. -/
theorem exists_bind_eq_ok_iff_left {ε β β' : Type} {x : Except ε β} {f : β → Except ε β'}
    (hf : ∀ b, ∃ c, f b = .ok c) : (∃ c, x >>= f = .ok c) ↔ ∃ b, x = .ok b :=
  (exists_bind_eq_ok_iff fun b => iff_true_intro (hf b)).trans (and_iff_left trivial)

end Downhill

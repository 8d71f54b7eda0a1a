import Downhill.Proofs.Session.Turns
import Downhill.Time.HostTimers

/-! # The sessions there are

A session is opened with settings that the library has made, over a scheduler, and then only
changed by commands.  `Opened` are the sessions nothing has been done to, `Reachable` those that
some history leads to, and `Restarted` those that stand at their start again: opened just now,
reset, or sent to a drawn start.  All of the last kind look alike (`Restarted.atStart`).
-/

namespace Downhill

variable {α σ γ : Type}

/-! ## 1. Settings -/

/-- Settings as the library makes them: from single values, or from other settings by replacing
one value. -/
inductive Config.Made [Scalar α] : Config α → Prop where
  | ofSettings {rule : StepRule α} {constraint : Constraint α} {threshold : α} {config : Config α}
      (h : Config.ofSettings rule constraint threshold = .ok config) : Made config
  | setRule {config config' : Config α} {rule : StepRule α} (hc : Made config)
      (h : config.setRule rule = .ok config') : Made config'
  | setConstraint {config config' : Config α} {constraint : Constraint α} (hc : Made config)
      (h : config.setConstraint constraint = .ok config') : Made config'
  | setThreshold {config config' : Config α} {threshold : α} (hc : Made config)
      (h : config.setThreshold threshold = .ok config') : Made config'

theorem Config.Made.valid [Scalar α] {config : Config α} (h : config.Made) : config.Valid := by
  induction h with
  | ofSettings h => exact (Config.ofSettings_eq_ok_iff.mp h).2
  | setRule _ h ih => exact ih.setRule h
  | setConstraint _ h ih => exact ih.setConstraint h
  | setThreshold _ h ih => exact ih.setThreshold h

/-- The default settings pass their own checks. -/
theorem Config.made_default : (Config.default : Config Float).Made := by
  have h : Config.ofSettings .default .default Config.defaultThreshold =
      .ok (Config.default : Config Float) := rfl
  exact .ofSettings h

/-! ## 2. Sessions -/

namespace Session

section Opened

variable [Scalar α]

/-- The sessions opened over a scheduler, with nothing done to them yet. -/
inductive Opened (scheduler : σ) : Session α σ γ → Prop where
  | new {objective : Objective α} {config : Config α} {initial : Point α} {source : γ}
      {s : Session α σ γ} (hc : config.Made)
      (h : Session.new objective config initial scheduler source = .ok s) : Opened scheduler s
  | ofSettings {objective : Objective α} {constraint : Constraint α} {rule : StepRule α}
      {threshold : α} {initial : Point α} {source : γ} {s : Session α σ γ}
      (h : Session.ofSettings objective constraint rule threshold initial scheduler source =
        .ok s) : Opened scheduler s
  | withBounds {s : Session α σ γ} (h : Opened scheduler s) (bounds : Bounds α) :
      Opened scheduler (s.withBounds bounds)

theorem opened_bundled {config : Config Float} {initial : Point Float} {source : γ}
    {s : Session Float VirtualClock γ} (hc : config.Made)
    (h : bundled config initial source = .ok s) : Opened .new s :=
  .new hc h

/-- Nothing has been accepted since the start, and no run is on. -/
structure AtStart (s : Session α σ γ) : Prop where
  mode : s.mode = .idle
  path : s.path = #[s.start]
  readings : s.readings = .atStart s.start
  timer : s.timer = none

theorem atStart_of_new {objective : Objective α} {config : Config α} {initial : Point α}
    {scheduler : σ} {source : γ} {s : Session α σ γ}
    (h : Session.new objective config initial scheduler source = .ok s) :
    s.AtStart ∧ s.config = config ∧ s.scheduler = scheduler := by
  unfold Session.new at h
  split at h
  · cases h; exact ⟨⟨rfl, rfl, rfl, rfl⟩, rfl, rfl⟩
  · cases h

/-- An opened session stands at its start with valid settings and the scheduler it was given. -/
theorem Opened.fresh {scheduler : σ} {s : Session α σ γ} (h : Opened scheduler s) :
    s.AtStart ∧ s.config.Valid ∧ s.scheduler = scheduler := by
  induction h with
  | new hc h =>
    obtain ⟨hs, rfl, hσ⟩ := atStart_of_new h
    exact ⟨hs, hc.valid, hσ⟩
  | ofSettings h =>
    obtain ⟨config, hc, h⟩ := bind_eq_ok_iff.mp h
    obtain ⟨hs, rfl, hσ⟩ := atStart_of_new h
    exact ⟨hs, (Config.ofSettings_eq_ok_iff.mp hc).2, hσ⟩
  | withBounds _ bounds ih =>
    obtain ⟨hs, hc, hσ⟩ := ih
    exact ⟨⟨hs.mode, hs.path, hs.readings, hs.timer⟩, hc, hσ⟩

end Opened

variable [Scalar α] [Scheduler σ] [WordSource γ]

/-- The sessions that a history leads to from one opened over the scheduler. -/
def Reachable (scheduler : σ) (s : Session α σ γ) : Prop :=
  ∃ (s₀ : Session α σ γ) (cs : List (Command α)) (r : Reply (List (Answer α)) α σ γ),
    Opened scheduler s₀ ∧ s₀.play cs = .ok r ∧ r.next = s

/-- The sessions at the beginning of a descent: opened, reset or sent to a drawn start. -/
inductive Restarted (scheduler : σ) : Session α σ γ → Prop where
  | opened {s : Session α σ γ} (h : Opened scheduler s) : Restarted scheduler s
  | reset {s : Session α σ γ} (h : Reachable scheduler s) : Restarted scheduler s.reset.next
  | randomStart {s : Session α σ γ} {r : Reply Unit α σ γ} (h : Reachable scheduler s)
      (hr : s.randomStart = .ok r) : Restarted scheduler r.next

theorem Restarted.atStart {scheduler : σ} {s : Session α σ γ} (h : Restarted scheduler s) :
    s.AtStart := by
  cases h with
  | opened h => exact h.fresh.1
  | reset _ => exact ⟨rfl, rfl, rfl, rfl⟩
  | randomStart _ hr =>
    obtain ⟨d, _, h⟩ := bind_eq_ok_iff.mp hr
    cases h
    exact ⟨rfl, rfl, rfl, rfl⟩

/-! ## 3. Sessions with what follows of them

A given history leads to a session that can be computed, and so can a test `Q` of it.  What follows
from the test of whatever the history leads to holds of that session.  While it is proved, the
session is a variable, and nothing of it is computed. -/

variable {scheduler : σ} {made : Except (InvalidSetting α) (Session α σ γ)}

omit [Scheduler σ] [WordSource γ] in
theorem exists_made (hopened : ∀ {s}, made = .ok s → Opened scheduler s)
    {P : Session α σ γ → Prop} (Q : Session α σ γ → Prop) {s : Session α σ γ} (hs : made = .ok s)
    (hQ : Q s) (h : ∀ s, Opened scheduler s → Q s → P s) : ∃ s, made = .ok s ∧ P s :=
  ⟨s, hs, h s (hopened hs) hQ⟩

theorem exists_played (hopened : ∀ {s}, made = .ok s → Opened scheduler s) {cs : List (Command α)}
    {P : Session α σ γ → Reply (List (Answer α)) α σ γ → Prop}
    (Q : Session α σ γ → Reply (List (Answer α)) α σ γ → Prop) {s₀ : Session α σ γ}
    {r : Reply (List (Answer α)) α σ γ} (hs : made = .ok s₀) (hr : s₀.play cs = .ok r)
    (hQ : Q s₀ r) (h : ∀ s₀ r, Opened scheduler s₀ → s₀.play cs = .ok r → Q s₀ r → P s₀ r) :
    ∃ s₀ r, made = .ok s₀ ∧ s₀.play cs = .ok r ∧ P s₀ r :=
  ⟨s₀, r, hs, hr, h s₀ r (hopened hs) hr hQ⟩

end Session

end Downhill

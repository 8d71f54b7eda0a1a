import Downhill.Proofs.Sampling.Drawable
import Downhill.Proofs.Session.Reachable
import Downhill.Random.Xoshiro

/-! # What random starts depend on

A session draws its random starts from a source of words that nothing else reads.  How many words a
draw takes depends on what it draws: candidates are rejected until one is admitted.  So a single
word taken elsewhere, or another rectangle, would shift all starts that follow.

* `Bounds.draws`: the points drawn one after the other from a source, each for the constraint given
  for it.  There is no session in it.
* `Linked.draws`: the random starts of a history are such draws, for the constraints in force at
  them.  Between two of them the source and the rectangle stay as they are.
* `Session.random_starts_agree`: so two sessions with the same source and rectangle go to the same
  random starts as long as the constraints agree, whatever else happens in either.
-/

namespace Downhill

variable {α σ γ : Type} [Scalar α]

/-! ## 1. Draws one after the other -/

/-- The points drawn from a rectangle, one for each of the constraints, up to the first draw that is
refused. -/
def Bounds.draws [WordSource γ] (bounds : Bounds α) : γ → List (Constraint α) → List (Point α)
  | _, [] => []
  | source, constraint :: rest =>
    match constraint.draw bounds source with
    | .ok d => d.point :: bounds.draws d.source rest
    | .error _ => []

/-- Fewer constraints, fewer draws, but the same ones. -/
theorem Bounds.draws_take [WordSource γ] (bounds : Bounds α) :
    ∀ (k : Nat) (source : γ) (constraints : List (Constraint α)),
      bounds.draws source (constraints.take k) = (bounds.draws source constraints).take k
  | 0, _, _ => by simp [draws]
  | k + 1, _, [] => rfl
  | k + 1, source, constraint :: rest => by
    cases hd : constraint.draw bounds source with
    | error e => simp [draws, hd]
    | ok d => simp [draws, hd, draws_take bounds k d.source rest]

/-! ## 2. Random starts of a history -/

/-- The constraint in force at a random start, and the point that the session goes to. -/
def Turn.draw (t : Turn α σ γ) : Option (Constraint α × Point α) :=
  match t.move with
  | .randomStart => some (t.before.config.constraint, t.after.start)
  | _ => none

omit [Scalar α] in
theorem Turn.move_of_draw {t : Turn α σ γ} {constraint : Constraint α} {p : Point α}
    (h : t.draw = some (constraint, p)) : t.move = .randomStart := by
  unfold draw at h
  split at h
  · assumption
  · cases h

variable [Scheduler σ] [WordSource γ]

namespace Turn.Sound

variable {t : Turn α σ γ} {constraint : Constraint α} {p : Point α}

/-- No turn but a random start touches what random starts are drawn from, or the start point. -/
theorem of_draw_eq_none (ht : t.Sound) (h : t.draw = none) :
    t.after.source = t.before.source ∧ t.after.bounds = t.before.bounds ∧
      t.after.start = t.before.start := by
  cases ht with
  | step | tick | fire => simp
  | randomStart => cases h
  | _ => exact ⟨rfl, rfl, rfl⟩

/-- A random start draws once, for the constraint in force, and the session stands at the point that
was drawn. -/
theorem of_draw_eq_some (ht : t.Sound) (h : t.draw = some (constraint, p)) :
    ∃ d, constraint.draw t.before.bounds t.before.source = .ok d ∧ d.point = p ∧
      t.after.source = d.source ∧ t.after.bounds = t.before.bounds ∧
      t.after.start = p ∧ t.after.AtStart := by
  have hm := move_of_draw h
  cases ht with
  | randomStart hd =>
    cases h
    exact ⟨_, hd, rfl, rfl, rfl, rfl, rfl, rfl, rfl, rfl⟩
  | refused hr =>
    cases hm
    exact absurd hr (Session.not_refuses_of_restarts rfl)
  | set hset =>
    cases hm
    cases hset
  | _ => cases hm

/-- A reset goes back to the start point. -/
theorem of_reset (ht : t.Sound) (hm : t.move = .reset) :
    t.after.start = t.before.start ∧ t.after.AtStart := by
  cases ht with
  | reset s => exact ⟨rfl, rfl, rfl, rfl, rfl⟩
  | refused hr =>
    cases hm
    exact absurd hr (Session.not_refuses_of_restarts rfl)
  | set hset =>
    cases hm
    cases hset
  | _ => cases hm

end Turn.Sound

/-- **The random starts of a history are draws from the source of its first session**, for the
constraints in force at them. -/
theorem Linked.draws {s s' : Session α σ γ} {ts : List (Turn α σ γ)} (h : Linked s ts s') :
    (ts.filterMap Turn.draw).map Prod.snd =
      s.bounds.draws s.source ((ts.filterMap Turn.draw).map Prod.fst) := by
  induction h with
  | nil => rfl
  | @cons t ts s' ht _ ih =>
    cases hdraw : t.draw with
    | none =>
      obtain ⟨hsource, hbounds, -⟩ := ht.of_draw_eq_none hdraw
      rw [List.filterMap_cons_none hdraw, ih, hsource, hbounds]
    | some cp =>
      obtain ⟨constraint, p⟩ := cp
      obtain ⟨d, hd, rfl, hsource, hbounds, -⟩ := ht.of_draw_eq_some hdraw
      rw [List.filterMap_cons_some hdraw, List.map_cons, List.map_cons, ih, Bounds.draws, hd,
        hsource, hbounds]

/-- Turns that are no random start leave the start point alone. -/
theorem Linked.start_of_no_draw {s s' : Session α σ γ} {ts : List (Turn α σ γ)}
    (h : Linked s ts s') (hts : ∀ t ∈ ts, t.draw = none) : s'.start = s.start := by
  induction h with
  | nil => rfl
  | @cons t ts s' ht _ ih =>
    rw [ih fun u hu => hts u (List.mem_cons_of_mem _ hu),
      (ht.of_draw_eq_none (hts t List.mem_cons_self)).2.2]

/-- The turns of a history can be cut in two anywhere. -/
theorem Linked.split {s s'' : Session α σ γ} {us : List (Turn α σ γ)} :
    ∀ {ts : List (Turn α σ γ)}, Linked s (ts ++ us) s'' →
      ∃ s', Linked s ts s' ∧ Linked s' us s''
  | [], h => ⟨s, .nil s, h⟩
  | t :: ts, h => by
    cases h with
    | cons ht h =>
      obtain ⟨s', hs', hs''⟩ := split h
      exact ⟨s', .cons ht hs', hs''⟩

/-- After a random start and before the next one, a reset goes back to the drawn point. -/
theorem Linked.reset_after_draw {s s' : Session α σ γ} {past between : List (Turn α σ γ)}
    {d z : Turn α σ γ} {constraint : Constraint α} {p : Point α}
    (h : Linked s (past ++ d :: (between ++ [z])) s') (hd : d.draw = some (constraint, p))
    (hbetween : ∀ u ∈ between, u.draw = none) (hz : z.move = .reset) :
    d.after.AtStart ∧ z.after.start = p ∧ z.after.AtStart := by
  obtain ⟨s₁, -, h⟩ := h.split
  cases h with
  | cons hsound h =>
    obtain ⟨d', -, -, -, -, hstart, hat⟩ := hsound.of_draw_eq_some hd
    obtain ⟨s'', hstay, h⟩ := h.split
    cases h with
    | cons hreset _ =>
      obtain ⟨hback, hat'⟩ := hreset.of_reset hz
      exact ⟨hat, hback.trans ((hstay.start_of_no_draw hbetween).trans hstart), hat'⟩

/-! ## 3. Two sessions -/

namespace Session

/-- The turns of a history are linked also where it ends at a random start that is refused. -/
theorem exists_linked_turns : ∀ (cs : List (Command α)) (s : Session α σ γ),
    ∃ s', Linked s (s.turns cs) s'
  | [], s => ⟨s, .nil s⟩
  | c :: cs, s => by
    unfold turns
    cases hr : s.perform c with
    | error e => exact ⟨s, .nil s⟩
    | ok r =>
      obtain ⟨s', hs'⟩ := exists_linked_turns cs r.next
      exact ⟨s', (linked_turnsOf hr).append hs'⟩

/-- The first random starts of a history, as draws. -/
theorem take_draws (s : Session α σ γ) (cs : List (Command α)) (k : Nat) :
    (((s.turns cs).filterMap Turn.draw).take k).map Prod.snd =
      s.bounds.draws s.source ((((s.turns cs).filterMap Turn.draw).take k).map Prod.fst) := by
  obtain ⟨s', hs'⟩ := exists_linked_turns cs s
  rw [List.map_take, hs'.draws, List.map_take, Bounds.draws_take]

omit [Scheduler σ] in
/-- **Random starts depend on the source, the rectangle and the constraints in force at them, and on
nothing else.**

Take two sessions with the same source of words and the same rectangle, whatever their objectives,
settings, points and schedulers, and a history of each.  As long as the constraints in force at
their random starts are the same, one after the other, so are the points they go to, whatever is
done in between.  After a random start and up to the next one, every reset goes back to the point
that was drawn, and nothing has been accepted there yet. -/
theorem random_starts_agree {σ' : Type} [Scheduler σ] [Scheduler σ'] {s : Session α σ γ}
    {t : Session α σ' γ} (hsource : t.source = s.source) (hbounds : t.bounds = s.bounds)
    (cs ds : List (Command α)) :
    let draws := (s.turns cs).filterMap Turn.draw
    let draws' := (t.turns ds).filterMap Turn.draw
    (∀ k, (draws.take k).map Prod.fst = (draws'.take k).map Prod.fst →
      draws.take k = draws'.take k) ∧
    ∀ (past between : List (Turn α σ γ)) (d z : Turn α σ γ) (constraint : Constraint α)
      (p : Point α), past ++ d :: (between ++ [z]) <+: s.turns cs →
      d.draw = some (constraint, p) → (∀ u ∈ between, u.draw = none) → z.move = .reset →
      d.after.AtStart ∧ z.after.start = p ∧ z.after.AtStart := by
  refine ⟨fun k hk => ?_, fun past between d z constraint p hpast hd hbetween hz => ?_⟩
  · have hpoints := take_draws t ds k
    rw [hsource, hbounds, ← hk, ← take_draws s cs k] at hpoints
    have hzip (l : List (Constraint α × Point α)) : (l.map Prod.fst).zip (l.map Prod.snd) = l := by
      rw [← List.unzip_fst, ← List.unzip_snd, List.zip_unzip]
    rw [← hzip (List.take k _), hk, ← hpoints, hzip]
  · obtain ⟨rest, hrest⟩ := hpast
    obtain ⟨s', hs'⟩ := exists_linked_turns cs s
    rw [← hrest] at hs'
    obtain ⟨s'', h, -⟩ := hs'.split
    exact h.reset_after_draw hd hbetween hz

/-- Two random starts in a disk, among steps and ticks. -/
def startsOnTheClock : List (Command Float) :=
  [.setConstraint (.disk 30.0), .run (.ofNanos 1000000), .advanceClock (.ofNanos 3000000),
    .randomStart, .run (.ofNanos 2000000), .randomStart]

/-- Two random starts in a disk, with another constraint and a reset in between. -/
def startsByHand : List (Command Float) :=
  [.setConstraint (.disk 30.0), .randomStart, .setConstraint (.parabola 0.05), .step, .reset,
    .setConstraint (.disk 30.0), .randomStart]

/-- From the rectangle of a new session a start can be drawn. -/
theorem randomStart_of_sampling {s : Session Float σ γ} (hb : s.bounds = .sampling) :
    ∃ r, s.randomStart = .ok r := by
  rw [randomStart_ok_iff, hb, Constraint.draw_ok_iff Bounds.Made.sampling.ordered]
  exact (Bounds.drawable_named _).2

theorem turns_randomStart_step_reset {s : Session Float σ γ} {r : Reply Unit Float σ γ}
    (hr : s.randomStart = .ok r) : s.turns [.randomStart, .step, .reset] =
      [⟨s, .randomStart, none, r.next⟩, ⟨r.next, .step, r.next.step.value, r.next.step.next⟩,
        ⟨r.next.step.next, .reset, none, r.next.step.next.reset.next⟩] := by
  simp only [turns, turnsOf, perform, hr, Except.map]
  rfl

omit [Scalar α] [Scheduler σ] [WordSource γ] in
/-- Two sessions that can be made, with what follows of them from a test, as in `exists_made`. -/
theorem exists_made_both {σ' : Type} {made : Except (InvalidSetting α) (Session α σ γ)}
    {made' : Except (InvalidSetting α) (Session α σ' γ)}
    {P : Session α σ γ → Session α σ' γ → Prop} (Q : Session α σ γ → Session α σ' γ → Prop)
    {s : Session α σ γ} {t : Session α σ' γ} (hs : made = .ok s) (ht : made' = .ok t)
    (hQ : Q s t) (h : ∀ s t, Q s t → P s t) : ∃ s t, made = .ok s ∧ made' = .ok t ∧ P s t :=
  ⟨s, t, hs, ht, h s t hQ⟩

/-- Two sessions of one seed that have nothing else in common go to the same two random starts, and
a reset after one more random start goes back there. -/
theorem starts_of_one_seed :
    ∃ (s : Session Float VirtualClock Xoshiro) (t : Session Float HostTimers Xoshiro),
      bundled .default ⟨25.0, 15.0⟩ (Xoshiro.ofSeed 7) = .ok s ∧
      ofSettings (Objective.fixed 1.0 ⟨1.0, 0.0⟩ (.symmetric 1.0 0.0 1.0)) .unconstrained
        (.dampedNewton 0.5) 1e-3 ⟨-3.0, 4.0⟩ HostTimers.new (Xoshiro.ofSeed 7) = .ok t ∧
      t.source = s.source ∧ t.bounds = s.bounds ∧
      ((s.turns startsOnTheClock).filterMap Turn.draw).length = 2 ∧
      ((s.turns startsOnTheClock).filterMap Turn.draw).take 2 =
        ((t.turns startsByHand).filterMap Turn.draw).take 2 ∧
      ∃ (d u z : Turn Float VirtualClock Xoshiro) (constraint : Constraint Float) (p : Point Float),
        s.turns [.randomStart, .step, .reset] = [d, u, z] ∧ d.draw = some (constraint, p) ∧
        d.after.AtStart ∧ z.after.start = p ∧ z.after.AtStart := by
  refine exists_made_both (fun s t => t.source = s.source ∧ t.bounds = s.bounds ∧
      s.bounds = .sampling ∧ ((s.turns startsOnTheClock).filterMap Turn.draw).length = 2 ∧
      (((s.turns startsOnTheClock).filterMap Turn.draw).take 2).map Prod.fst =
        (((t.turns startsByHand).filterMap Turn.draw).take 2).map Prod.fst) rfl rfl
    ⟨rfl, rfl, rfl, by decide +kernel, by decide +kernel⟩ ?_
  rintro s t ⟨hsource, hbounds, hsampling, hlength, hconstraints⟩
  refine ⟨hsource, hbounds, hlength,
    (random_starts_agree hsource hbounds _ _).1 2 hconstraints, ?_⟩
  obtain ⟨r, hr⟩ := randomStart_of_sampling hsampling
  have hturns := turns_randomStart_step_reset hr
  obtain ⟨hat, hstart, hat'⟩ := (random_starts_agree (t := s) rfl rfl _ []).2 [] [_] _ _ _ _
    ⟨[], hturns.symm⟩ rfl (List.forall_mem_singleton.mpr rfl) rfl
  exact ⟨_, _, _, _, _, hturns, rfl, hat, hstart, hat'⟩

end Session

end Downhill

import Downhill.Proofs.Session.Coherence
import Downhill.Proofs.Time.Pending
import Downhill.Random.Xoshiro

/-! # No tick is honoured twice

Ticks are reported from outside: late, again, or with an id that was never handed out.  A session
recognises the one it waits for by its id alone, so what keeps it from being fooled is that ids
are not used again.  This is a statement about histories:

* `Turn.honours`, `Turn.issues`, `Turn.withdraws`: the timer that a turn answers with a step, the
  one the session begins to wait for, the one it is told to forget.
* `Tidy`: the invariant.  The timer a session waits for was issued in its past and has a higher
  number than every timer spent there.  So timers are honoured in the order of their numbers, none
  before it was issued and none after it was withdrawn.
-/

namespace Downhill

variable {α σ γ : Type}

/-! ## 1. What a turn does with timers -/

namespace Turn

/-- The timer that the turn answers with a step. -/
def honours (t : Turn α σ γ) : Option TimerId :=
  match t.move with
  | .tick timer | .fire timer => if t.event.isSome then some timer else none
  | _ => none

/-- The timer that the session begins to wait for, by a new run or by a step of one. -/
def issues (t : Turn α σ γ) : Option TimerId :=
  match t.move with
  | .run _ => if t.before.pendingTimer = none then t.after.pendingTimer else none
  | .tick _ | .fire _ => if t.event.isSome then t.after.pendingTimer else none
  | _ => none

/-- The timer that the session waited for when it was interrupted.  A descent interrupts it, too:
its first turn is a pause. -/
def withdraws (t : Turn α σ γ) : Option TimerId :=
  match t.move with
  | .pause | .reset | .randomStart => t.before.pendingTimer
  | _ => none

/-- The timer is honoured or withdrawn. -/
def Spends (t : Turn α σ γ) (id : TimerId) : Prop := t.honours = some id ∨ t.withdraws = some id

theorem honours_of_no_event {t : Turn α σ γ} (h : t.event = none) : t.honours = none := by
  unfold honours
  split <;> simp [h]

theorem not_spends {t : Turn α σ γ} (hh : t.honours = none) (hw : t.withdraws = none)
    (id : TimerId) : ¬ t.Spends id := by
  rintro (h | h)
  · rw [hh] at h
    cases h
  · rw [hw] at h
    cases h

theorem timer_of_withdraws {t : Turn α σ γ} {id : TimerId} (h : t.withdraws = some id) :
    t.before.timer = some id := by
  unfold withdraws at h
  split at h
  · exact h
  · exact h
  · exact h
  · cases h

/-- A refused turn spends no timer: a pause is refused only when there is none. -/
theorem not_spends_of_refuses [Scalar α] {s : Session α σ γ} {m : Move α} (hc : s.Coherent)
    (h : s.Refuses m) (id : TimerId) : ¬ Spends ⟨s, m, none, s⟩ id := by
  refine not_spends (honours_of_no_event rfl) ?_ id
  cases m with
  | pause => exact hc.timer_eq_none h
  | reset | randomStart => obtain ⟨e, he⟩ := h; cases he
  | _ => rfl

variable [Scalar α] [Scheduler σ] [WordSource γ]

theorem Sound.timer_of_honours {t : Turn α σ γ} (ht : t.Sound) {id : TimerId}
    (h : t.honours = some id) : t.before.timer = some id := by
  cases ht with
  | tick _ htimer => cases h; exact htimer
  | fire _ _ htimer => cases h; exact htimer
  | step _ => cases h
  | _ => rw [honours_of_no_event rfl] at h; cases h

/-- Only the timer that the session waits for can be spent. -/
theorem Sound.timer_of_spends {t : Turn α σ γ} (ht : t.Sound) {id : TimerId}
    (h : t.Spends id) : t.before.timer = some id :=
  h.elim ht.timer_of_honours timer_of_withdraws

end Turn

/-! ## 2. Timers are handed out by number -/

section Numbering

variable [Scheduler σ] [NumberingScheduler σ]

open NumberingScheduler

namespace Session

theorem issued_released (s : Session α σ γ) : issued s.released = issued s.scheduler := by
  unfold released
  split
  · exact issued_cancel _ _
  · rfl

theorem issued_wait (s : Session α σ γ) : issued s.wait.scheduler = issued s.scheduler + 1 :=
  issued_schedule s.scheduler s.interval

theorem timer_wait (s : Session α σ γ) :
    s.wait.timer = some ⟨(issued s.scheduler).toUInt64⟩ :=
  congrArg some (schedule_id s.scheduler s.interval)

variable [Scalar α]

theorem issued_advance (s : Session α σ γ) :
    issued s.advance.next.scheduler = issued s.scheduler := by
  unfold advance
  dsimp only
  split
  · exact issued_released s
  · rfl

/-- A step of a run starts no timer and waits for none, or starts one and waits for it. -/
theorem issued_runStep (s : Session α σ γ) (hm : s.mode = .running) :
    (s.runStep.next.timer = none ∧ issued s.runStep.next.scheduler = issued s.scheduler) ∨
      (s.runStep.next.timer = some ⟨(issued s.scheduler).toUInt64⟩ ∧
        issued s.runStep.next.scheduler = issued s.scheduler + 1) := by
  rcases runStep_cases hm with ⟨_, h⟩ | ⟨_, h⟩
  · rw [h]
    exact Or.inl ⟨rfl, rfl⟩
  · rw [h]
    exact Or.inr ⟨timer_wait _, issued_wait _⟩

end Session

namespace Turn

variable [Scalar α] [WordSource γ]

/-- The number of timers never goes down. -/
theorem Sound.issued_le {t : Turn α σ γ} (ht : t.Sound) :
    issued t.before.scheduler ≤ issued t.after.scheduler := by
  cases ht with
  | refused _ | set _ => exact Nat.le_refl _
  | step _ => exact Nat.le_of_eq (Session.issued_advance _).symm
  | @run s interval _ _ =>
    have := Session.issued_wait { s with interval := interval, mode := .running }
    dsimp only at this ⊢
    omega
  | tick hm _ => have := Session.issued_runStep _ hm; dsimp only; omega
  | pause _ | reset _ | randomStart _ => exact Nat.le_of_eq (Session.issued_released _).symm
  | @fire s timer c _ hpop hm _ =>
    have hc := issued_popDue hpop
    have := Session.issued_runStep { s with scheduler := c } hm
    dsimp only at this ⊢
    omega
  | drop hpop _ => exact Nat.le_of_eq (issued_popDue hpop).symm
  | settle _ => exact Nat.le_of_eq (issued_advanceTo _ _).symm

/-- The timer that a session waits for after a turn is a new one, or it was there before and the
turn did not spend it. -/
theorem Sound.timer_after {t : Turn α σ γ} (ht : t.Sound) (hc : t.before.Coherent) {id : TimerId}
    (h : t.after.timer = some id) :
    (t.issues = some id ∧ id = ⟨(issued t.before.scheduler).toUInt64⟩ ∧
        issued t.after.scheduler = issued t.before.scheduler + 1) ∨
      (t.before.timer = some id ∧ ∀ i, ¬ t.Spends i) := by
  cases ht with
  | refused hr => exact Or.inr ⟨h, not_spends_of_refuses hc hr⟩
  | step _ =>
    rw [Session.timer_advance] at h
    split at h
    · cases h
    · exact Or.inr ⟨h, not_spends rfl rfl⟩
  | @run s interval ha _ =>
    have hnone : s.timer = none := hc.timer_eq_none (Mode.acceptsManualStep_iff.mp ha).1
    have hid := Option.some.inj (h.symm.trans (Session.timer_wait _))
    exact Or.inl ⟨(if_pos hnone).trans h, hid, Session.issued_wait _⟩
  | @tick s timer hm _ =>
    rcases Session.issued_runStep s hm with ⟨hnone, _⟩ | ⟨hsome, hn⟩
    · rw [hnone] at h
      cases h
    · exact Or.inl ⟨h, Option.some.inj (h.symm.trans hsome), hn⟩
  | pause _ | reset _ | randomStart _ => cases h
  | @set s m config hset =>
    refine Or.inr ⟨h, ?_⟩
    cases m with
    | setRule | setConstraint | setThreshold => exact not_spends rfl rfl
    | _ => cases hset
  | @fire s timer c _ hpop hm _ =>
    have hc := issued_popDue hpop
    rcases Session.issued_runStep { s with scheduler := c } hm with ⟨hnone, _⟩ | ⟨hsome, hn⟩
    · rw [hnone] at h
      cases h
    · refine Or.inl ⟨h, ?_, ?_⟩
      · rw [← hc]; exact Option.some.inj (h.symm.trans hsome)
      · rw [← hc]; exact hn
  | drop _ _ => exact Or.inr ⟨h, not_spends rfl rfl⟩
  | settle _ => exact Or.inr ⟨h, not_spends rfl rfl⟩

end Turn

/-- **What a sound turn of a coherent session preserves**, as long as ids are not used again, a
history preserves. -/
theorem Linked.induct_numbered [Scalar α] [WordSource γ]
    {P : List (Turn α σ γ) → Session α σ γ → Prop}
    (hturn : ∀ (past : List (Turn α σ γ)) (t : Turn α σ γ), t.Sound → t.before.Coherent →
      issued t.after.scheduler < UInt64.size → P past t.before → P (past ++ [t]) t.after)
    {s s' : Session α σ γ} {ts : List (Turn α σ γ)} (h : Linked s ts s') (hc : s.Coherent)
    (hn : issued s'.scheduler < UInt64.size) (past : List (Turn α σ γ)) (hp : P past s) :
    P (past ++ ts) s' := by
  have hboth : ∀ (past : List (Turn α σ γ)) (t : Turn α σ γ), t.Sound →
      t.before.Coherent ∧ (issued t.before.scheduler < UInt64.size → P past t.before) →
      t.after.Coherent ∧ (issued t.after.scheduler < UInt64.size → P (past ++ [t]) t.after) := by
    rintro past t ht ⟨hc, hp⟩
    exact ⟨hc.turn ht, fun hn => hturn past t ht hc hn (hp (Nat.lt_of_le_of_lt ht.issued_le hn))⟩
  exact (h.induct (P := fun past s => s.Coherent ∧ (issued s.scheduler < UInt64.size → P past s))
    hboth past ⟨hc, fun _ => hp⟩).2 hn

/-! ## 3. Histories

`Tidy` carries, besides the three facts that are wanted, what the session knows of its past: it
waits for a timer that was issued there, after all that were spent there. -/

/-- What is true of the past turns of a session.  Timers were honoured in the order of their
numbers, each after it had been issued and none after it had been withdrawn.  The timer that the
session waits for was issued as well and has a larger number than all that were spent, and those had
all been handed out. -/
structure Tidy (past : List (Turn α σ γ)) (s : Session α σ γ) : Prop where
  increasing : (past.filterMap Turn.honours).Pairwise fun i j => i.number < j.number
  earlier : ∀ before t id, before ++ [t] <+: past → t.honours = some id →
    ∃ u ∈ before, u.issues = some id
  withdrawn : past.Pairwise fun t u => ∀ id, t.withdraws = some id → u.honours ≠ some id
  waiting : ∀ id, s.timer = some id → (∃ u ∈ past, u.issues = some id) ∧
    id.number < issued s.scheduler ∧
      ∀ u ∈ past, ∀ i, u.Spends i → i.number < id.number
  spent : ∀ u ∈ past, ∀ i, u.Spends i → i.number < issued s.scheduler

/-- A session without a past. -/
theorem Tidy.nil {s : Session α σ γ} (h : s.timer = none) : Tidy [] s where
  increasing := .nil
  earlier before t id ht := by simp at ht
  withdrawn := .nil
  waiting id hid := by rw [h] at hid; cases hid
  spent u hu := by cases hu

variable [Scalar α] [WordSource γ]

/-! One more turn keeps the five facts.  It can spend only the timer that its session waits for,
and that one is later than all spent before. -/

namespace Tidy

variable {past : List (Turn α σ γ)} {t : Turn α σ γ}

theorem lt_of_honours (h : Tidy past t.before) (ht : t.Sound) {id : TimerId}
    (hid : t.honours = some id) : ∀ u ∈ past, ∀ i, u.Spends i → i.number < id.number :=
  (h.waiting id (ht.timer_of_honours hid)).2.2

theorem increasing_turn (h : Tidy past t.before) (ht : t.Sound) :
    ((past ++ [t]).filterMap Turn.honours).Pairwise fun i j => i.number < j.number := by
  rw [List.filterMap_append, List.pairwise_append]
  refine ⟨h.increasing, ?_, ?_⟩
  · cases hh : t.honours <;> simp [hh]
  · intro i hi j hj
    obtain ⟨u, hu, hui⟩ := List.mem_filterMap.mp hi
    have hj : t.honours = some j := by simpa using hj
    exact h.lt_of_honours ht hj u hu i (Or.inl hui)

theorem earlier_turn (h : Tidy past t.before) (ht : t.Sound) {before : List (Turn α σ γ)}
    {u : Turn α σ γ} {id : TimerId} (hu : before ++ [u] <+: past ++ [t])
    (hid : u.honours = some id) : ∃ v ∈ before, v.issues = some id := by
  rcases List.prefix_concat_iff.mp hu with hu | hu
  · obtain ⟨rfl, hut⟩ := List.append_inj' hu rfl
    cases hut
    exact (h.waiting id (ht.timer_of_honours hid)).1
  · exact h.earlier before u id hu hid

theorem withdrawn_turn (h : Tidy past t.before) (ht : t.Sound) :
    (past ++ [t]).Pairwise fun t u => ∀ id, t.withdraws = some id → u.honours ≠ some id := by
  refine List.pairwise_append.mpr ⟨h.withdrawn, List.pairwise_singleton _ _, ?_⟩
  intro u hu v hv id hid hid'
  rw [List.mem_singleton.mp hv] at hid'
  have hlt : id.number < id.number := h.lt_of_honours ht hid' u hu id (Or.inr hid)
  exact Nat.lt_irrefl _ hlt

theorem spent_before (h : Tidy past t.before) (ht : t.Sound) :
    ∀ u ∈ past ++ [t], ∀ i, u.Spends i → i.number < issued t.before.scheduler := by
  intro u hu i hi
  rcases List.mem_append.mp hu with hu | hu
  · exact h.spent u hu i hi
  · rw [List.mem_singleton.mp hu] at hi
    exact (h.waiting i (ht.timer_of_spends hi)).2.1

theorem waiting_turn (h : Tidy past t.before) (ht : t.Sound) (hc : t.before.Coherent)
    (hn : issued t.after.scheduler < UInt64.size) {id : TimerId} (hid : t.after.timer = some id) :
    (∃ u ∈ past ++ [t], u.issues = some id) ∧ id.number < issued t.after.scheduler ∧
      ∀ u ∈ past ++ [t], ∀ i, u.Spends i → i.number < id.number := by
  rcases ht.timer_after hc hid with ⟨hissues, rfl, hsucc⟩ | ⟨hbefore, hkept⟩
  -- A new timer has the next number, and whatever was spent had been handed out.
  · have hnum : TimerId.number ⟨(issued t.before.scheduler).toUInt64⟩ =
        issued t.before.scheduler := TimerId.number_of_lt (by omega)
    refine ⟨⟨t, by simp, hissues⟩, by omega, fun u hu i hi => ?_⟩
    rw [hnum]
    exact h.spent_before ht u hu i hi
  · obtain ⟨⟨u, hu, hui⟩, hlt, hlast⟩ := h.waiting id hbefore
    refine ⟨⟨u, List.mem_append_left _ hu, hui⟩, Nat.lt_of_lt_of_le hlt ht.issued_le, ?_⟩
    intro v hv i hi
    rcases List.mem_append.mp hv with hv | hv
    · exact hlast v hv i hi
    · rw [List.mem_singleton.mp hv] at hi
      exact absurd hi (hkept i)

theorem turn (h : Tidy past t.before) (ht : t.Sound) (hc : t.before.Coherent)
    (hn : issued t.after.scheduler < UInt64.size) : Tidy (past ++ [t]) t.after where
  increasing := h.increasing_turn ht
  earlier _ _ _ hu hid := h.earlier_turn ht hu hid
  withdrawn := h.withdrawn_turn ht
  waiting _ hid := h.waiting_turn ht hc hn hid
  spent u hu i hi := Nat.lt_of_lt_of_le (h.spent_before ht u hu i hi) ht.issued_le

end Tidy

/-- **No tick is honoured twice, early or after cancellation.**

Let a session be opened over a scheduler that numbers its timers, and let fewer than
`UInt64.size` be handed out.  Whatever is done to the session, with whatever ids are reported to
it: the timers it honours have increasing numbers; each of them was issued by an earlier turn, a
run begun or a step of it; and none was withdrawn by an earlier turn. -/
theorem ticks_honoured_in_order {scheduler : σ} {s₀ : Session α σ γ}
    (h₀ : s₀.Opened scheduler) {cs : List (Command α)} {r : Reply (List (Answer α)) α σ γ}
    (h : s₀.play cs = .ok r) (hn : issued r.next.scheduler < UInt64.size) :
    let turns := s₀.turns cs
    (turns.filterMap Turn.honours).Pairwise (fun i j => i.number < j.number) ∧
    (∀ before t id, before ++ [t] <+: turns → t.honours = some id →
      ∃ u ∈ before, u.issues = some id) ∧
    turns.Pairwise (fun t u => ∀ id, t.withdraws = some id → u.honours ≠ some id) := by
  obtain ⟨hstart, hvalid, _⟩ := h₀.fresh
  have htidy : Tidy _ r.next := (Session.linked_turns h).induct_numbered
    (fun _ _ ht hc hn htidy => htidy.turn ht hc hn) (hstart.coherent hvalid) hn []
    (.nil hstart.timer)
  exact ⟨htidy.increasing, htidy.earlier, htidy.withdrawn⟩

end Numbering

/-- Ticks that are reported again, after a pause, or for a timer that there never was, and a clock
that still holds the timers of the ticks that were honoured. -/
def lateTicks : List (Command Float) :=
  [.run (.ofNanos 1000000), .tick ⟨0⟩, .tick ⟨0⟩, .pause, .tick ⟨1⟩, .run (.ofNanos 1000000),
    .tick ⟨1⟩, .tick ⟨7⟩, .tick ⟨2⟩, .advanceClock (.ofNanos 2000000)]

/-- The timers honoured among late ticks, with either scheduler. -/
theorem late_ticks_not_honoured :
    (∃ (s₀ : Session Float HostTimers Xoshiro)
      (r : Reply (List (Answer Float)) Float HostTimers Xoshiro),
      Session.new QuadraticForm.bundled.objective .default ⟨25.0, 15.0⟩ HostTimers.new
        (Xoshiro.ofSeed 7) = .ok s₀ ∧ s₀.play lateTicks = .ok r ∧
      r.next.scheduler.issued < UInt64.size ∧
      (s₀.turns lateTicks).filterMap Turn.honours = [⟨0⟩, ⟨2⟩] ∧
      (s₀.turns lateTicks).filterMap Turn.withdraws = [⟨1⟩] ∧
      (s₀.turns lateTicks).Pairwise
        (fun t u => ∀ id, t.withdraws = some id → u.honours ≠ some id)) ∧
    ∃ (s₀ : Session Float VirtualClock Xoshiro)
      (r : Reply (List (Answer Float)) Float VirtualClock Xoshiro),
      Session.bundled .default ⟨25.0, 15.0⟩ (Xoshiro.ofSeed 7) = .ok s₀ ∧
      s₀.play lateTicks = .ok r ∧ r.next.scheduler.issued < UInt64.size ∧
      (s₀.turns lateTicks).filterMap Turn.honours = [⟨0⟩, ⟨2⟩, ⟨3⟩, ⟨4⟩] ∧
      ((s₀.turns lateTicks).filterMap Turn.honours).Pairwise
        (fun i j => i.number < j.number) := by
  constructor
  · refine Session.exists_played (.new Config.made_default)
      (fun s₀ r => r.next.scheduler.issued < UInt64.size ∧
        (s₀.turns lateTicks).filterMap Turn.honours = [⟨0⟩, ⟨2⟩] ∧
        (s₀.turns lateTicks).filterMap Turn.withdraws = [⟨1⟩]) rfl rfl (by decide +kernel) ?_
    rintro s₀ r hs hr ⟨hn, hhonours, hwithdraws⟩
    exact ⟨hn, hhonours, hwithdraws, (ticks_honoured_in_order hs hr hn).2.2⟩
  · refine Session.exists_played (Session.opened_bundled Config.made_default)
      (fun s₀ r => r.next.scheduler.issued < UInt64.size ∧
        (s₀.turns lateTicks).filterMap Turn.honours = [⟨0⟩, ⟨2⟩, ⟨3⟩, ⟨4⟩]) rfl rfl
      (by decide +kernel) ?_
    rintro s₀ r hs hr ⟨hn, hhonours⟩
    exact ⟨hn, hhonours, (ticks_honoured_in_order hs hr hn).1⟩

end Downhill

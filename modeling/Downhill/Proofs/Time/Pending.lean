import Downhill.Time.HostTimers
import Downhill.Time.VirtualClock

/-! # Numbered timers, and the pending ones of a virtual clock

Both schedulers give the first timer the number zero and every other one the next number, and
nothing but handing out a timer makes them count on.  The counter has no bound, while an id is a
word of 64 bits: up to `UInt64.size` timers, the id of a timer is its number.

* `popDue_eq_none_iff`, `popDue_eq_some_iff`: the clock fires a timer exactly if one is due, and
  then the first of them.
* `Ordered`: the pending timers stand in the order of their numbers, all of which have been
  handed out.  So no two have the same id.
* `Current`: no pending timer is overdue.
-/

namespace Downhill

/-! ## 1. Timers are numbered -/

/-- The number of a timer: how many were handed out before it. -/
def TimerId.number (id : TimerId) : Nat := id.raw.toNat

theorem TimerId.number_of_lt {n : Nat} (h : n < UInt64.size) : TimerId.number ⟨n.toUInt64⟩ = n := by
  rw [number, Nat.toUInt64, UInt64.toNat_ofNat_of_lt' h]

/-- A scheduler that hands out timers by number: `issued` counts them, a new one gets the next
number, and nothing else changes the count. -/
class NumberingScheduler (σ : Type) [Scheduler σ] where
  issued : σ → Nat
  schedule_id (c : σ) (delay : Duration) :
    (Scheduler.schedule c delay).1 = ⟨(issued c).toUInt64⟩
  issued_schedule (c : σ) (delay : Duration) :
    issued (Scheduler.schedule c delay).2 = issued c + 1
  issued_cancel (c : σ) (id : TimerId) : issued (Scheduler.cancel c id) = issued c
  issued_popDue {c c' : σ} {deadline : Duration} {id : TimerId}
    (h : Scheduler.popDue c deadline = some (id, c')) : issued c' = issued c
  issued_advanceTo (c : σ) (deadline : Duration) :
    issued (Scheduler.advanceTo c deadline) = issued c

namespace NumberingScheduler

variable {σ : Type} [Scheduler σ] [NumberingScheduler σ]

theorem number_schedule {c : σ} (h : issued c < UInt64.size) (delay : Duration) :
    (Scheduler.schedule c delay).1.number = issued c := by
  rw [schedule_id, TimerId.number_of_lt h]

end NumberingScheduler

instance : NumberingScheduler VirtualClock where
  issued := VirtualClock.issued
  schedule_id _ _ := rfl
  issued_schedule _ _ := rfl
  issued_cancel _ _ := rfl
  issued_popDue {c c' deadline id} h := by
    obtain ⟨t, -, heq⟩ := Option.map_eq_some_iff.mp h
    cases heq
    rfl
  issued_advanceTo _ _ := rfl

instance : NumberingScheduler HostTimers where
  issued := HostTimers.issued
  schedule_id _ _ := rfl
  issued_schedule _ _ := rfl
  issued_cancel _ _ := rfl
  issued_popDue h := by cases h
  issued_advanceTo _ _ := rfl

/-! ## 2. The timer that fires first -/

namespace Timer

theorem firesBefore_iff {t u : Timer} :
    t.firesBefore u = true ↔ t.due.nanos < u.due.nanos ∨
      t.due.nanos = u.due.nanos ∧ t.id.number < u.id.number := by
  have hdue : t.due = u.due ↔ t.due.nanos = u.due.nanos :=
    ⟨congrArg Duration.nanos, Duration.ext_nanos⟩
  simp [firesBefore, Duration.lt_iff, hdue, TimerId.number, UInt64.lt_iff_toNat_lt]

theorem firesBefore_eq_false_iff {t u : Timer} :
    t.firesBefore u = false ↔ u.due.nanos < t.due.nanos ∨
      u.due.nanos = t.due.nanos ∧ u.id.number ≤ t.id.number := by
  rw [← Bool.not_eq_true, firesBefore_iff]
  omega

/-- A timer that fires no later than another one is due no later. -/
theorem due_le {t u : Timer} (h : u.firesBefore t = false) : t.due ≤ u.due := by
  rw [firesBefore_eq_false_iff] at h
  rw [Duration.le_iff]
  omega

theorem not_firesBefore_of_due_lt {t u : Timer} (h : t.due < u.due) : u.firesBefore t = false := by
  rw [Duration.lt_iff] at h
  rw [firesBefore_eq_false_iff]
  omega

/-- Of two timers one fires before the other, unless they are the same. -/
theorem eq_of_not_firesBefore {t u : Timer} (h : t.firesBefore u = false)
    (h' : u.firesBefore t = false) : t = u := by
  rw [firesBefore_eq_false_iff] at h h'
  have hdue : t.due = u.due := Duration.ext_nanos (by omega)
  have hid : t.id.raw = u.id.raw := UInt64.toNat_inj.mp (show t.id.number = u.id.number by omega)
  obtain ⟨due, ⟨raw⟩⟩ := t
  obtain ⟨due', ⟨raw'⟩⟩ := u
  cases hdue
  cases hid
  rfl

end Timer

namespace VirtualClock

theorem earliest_eq_none_iff : ∀ {ts : List Timer}, earliest ts = none ↔ ts = []
  | [] => by simp [earliest]
  | t :: rest => by
    unfold earliest
    split
    · simp
    · split <;> simp

/-- The earliest timer is one of the timers, and none of them fires before it. -/
theorem earliest_spec : ∀ {ts : List Timer} {t : Timer}, earliest ts = some t →
    t ∈ ts ∧ ∀ u ∈ ts, u.firesBefore t = false
  | [], _, h => by cases h
  | t :: rest, first, h => by
    have hself : t.firesBefore t = false := Timer.firesBefore_eq_false_iff.mpr (by simp)
    unfold earliest at h
    split at h
    · rename_i hnone
      cases h
      rw [earliest_eq_none_iff.mp hnone]
      exact ⟨List.mem_cons_self, by simpa using hself⟩
    · rename_i u hu
      obtain ⟨hmem, hleast⟩ := earliest_spec hu
      split at h
      · rename_i hut
        cases h
        refine ⟨List.mem_cons_of_mem _ hmem, List.forall_mem_cons.mpr ⟨?_, hleast⟩⟩
        rw [Timer.firesBefore_iff] at hut
        rw [Timer.firesBefore_eq_false_iff]
        omega
      · rename_i hut
        cases h
        refine ⟨List.mem_cons_self, List.forall_mem_cons.mpr ⟨hself, fun v hv => ?_⟩⟩
        have hvu := hleast v hv
        rw [Bool.not_eq_true, Timer.firesBefore_eq_false_iff] at hut
        rw [Timer.firesBefore_eq_false_iff] at hvu ⊢
        omega

theorem earliest_eq_some_iff {ts : List Timer} {t : Timer} :
    earliest ts = some t ↔ t ∈ ts ∧ ∀ u ∈ ts, u.firesBefore t = false := by
  refine ⟨earliest_spec, fun ⟨hmem, hleast⟩ => ?_⟩
  cases hfirst : earliest ts with
  | none => rw [earliest_eq_none_iff.mp hfirst] at hmem; cases hmem
  | some u =>
    obtain ⟨hu, hleast'⟩ := earliest_spec hfirst
    rw [Timer.eq_of_not_firesBefore (hleast u hu) (hleast' t hmem)]

/-! ## 3. Taking out a timer -/

variable {c c' : VirtualClock} {deadline : Duration} {id : TimerId}

/-- Nothing fires exactly if nothing is due. -/
theorem popDue_eq_none_iff : c.popDue deadline = none ↔ ∀ t ∈ c.pending, deadline < t.due := by
  simp [popDue, earliest_eq_none_iff, List.filter_eq_nil_iff, Duration.le_iff, Duration.lt_iff]

/-- What fires is the first of all timers, if it is due; the clock loses it and moves to its due
time. -/
theorem popDue_eq_some_iff : c.popDue deadline = some (id, c') ↔
    ∃ t ∈ c.pending, t.id = id ∧ t.due ≤ deadline ∧
      (∀ u ∈ c.pending, u.firesBefore t = false) ∧
      c' = { c with now := c.now.later t.due, pending := c.pending.erase t } := by
  simp only [popDue, Option.map_eq_some_iff, earliest_eq_some_iff, List.mem_filter,
    decide_eq_true_eq, Prod.mk.injEq]
  constructor
  · rintro ⟨t, ⟨⟨hmem, hdue⟩, hleast⟩, rfl, rfl⟩
    refine ⟨t, hmem, rfl, hdue, fun u hu => ?_, rfl⟩
    -- A timer that is not due yet fires after the ones that are.
    by_cases hu' : u.due ≤ deadline
    · exact hleast u ⟨hu, hu'⟩
    · refine Timer.not_firesBefore_of_due_lt ?_
      rw [Duration.le_iff] at hdue hu'
      rw [Duration.lt_iff]
      omega
  · rintro ⟨t, hmem, rfl, hdue, hleast, rfl⟩
    exact ⟨t, ⟨⟨hmem, hdue⟩, fun u hu => hleast u hu.1⟩, rfl, rfl⟩

theorem popDue_cases (h : c.popDue deadline = some (id, c')) :
    ∃ t ∈ c.pending, t.id = id ∧ t.due ≤ deadline ∧
      (∀ u ∈ c.pending, t.due ≤ u.due) ∧
      c' = { c with now := c.now.later t.due, pending := c.pending.erase t } := by
  obtain ⟨t, hmem, hid, hdue, hleast, heq⟩ := popDue_eq_some_iff.mp h
  exact ⟨t, hmem, hid, hdue, fun u hu => Timer.due_le (hleast u hu), heq⟩

/-- A clock that fires by a deadline is not past it. -/
theorem now_popDue_le (h : c.popDue deadline = some (id, c')) (hnow : c.now ≤ deadline) :
    c'.now ≤ deadline := by
  obtain ⟨t, _, _, hdue, _, rfl⟩ := popDue_eq_some_iff.mp h
  rw [Duration.le_iff, Duration.nanos_later]
  exact Nat.max_le.mpr ⟨hnow, hdue⟩

/-! What is due by an early deadline is due by a later one, and fires first.  When nothing is due
any more by the early one, the clock can stop there on its way to the later one. -/

section TwoDeadlines

variable {early : Duration}

theorem popDue_of_le (h : c.popDue early = some (id, c')) (hle : early ≤ deadline) :
    c.popDue deadline = some (id, c') := by
  obtain ⟨t, ht, hid, hdue, hleast, heq⟩ := popDue_eq_some_iff.mp h
  exact popDue_eq_some_iff.mpr ⟨t, ht, hid, Nat.le_trans hdue hle, hleast, heq⟩

theorem popDue_advanceTo (h : c.popDue early = none) :
    (c.advanceTo early).popDue deadline = c.popDue deadline := by
  refine Option.map_congr fun t ht => ?_
  have hdue := popDue_eq_none_iff.mp h t (List.mem_filter.mp (earliest_spec ht).1).1
  have hnow : (c.now.later early).later t.due = c.now.later t.due := by
    refine Duration.ext_nanos ?_
    rw [Duration.lt_iff] at hdue
    rw [Duration.nanos_later, Duration.nanos_later, Duration.nanos_later]
    omega
  exact congrArg (fun now => (t.id, { c with now := now, pending := c.pending.erase t })) hnow

theorem advanceTo_advanceTo (hle : early ≤ deadline) :
    (c.advanceTo early).advanceTo deadline = c.advanceTo deadline := by
  have hnow : (c.now.later early).later deadline = c.now.later deadline := by
    refine Duration.ext_nanos ?_
    rw [Duration.le_iff] at hle
    rw [Duration.nanos_later, Duration.nanos_later, Duration.nanos_later]
    omega
  exact congrArg (fun now => { c with now := now }) hnow

end TwoDeadlines

/-! ## 4. The order of the pending timers -/

/-- The pending timers stand in the order of their numbers, all of them handed out. -/
structure Ordered (c : VirtualClock) : Prop where
  increasing : c.pending.Pairwise fun t u => t.id.number < u.id.number
  issued : ∀ t ∈ c.pending, t.id.number < c.issued

namespace Ordered

theorem new : VirtualClock.new.Ordered := ⟨.nil, by simp [VirtualClock.new]⟩

/-- Timers may go and the clock may move. -/
theorem sublist (h : c.Ordered) (hp : c'.pending.Sublist c.pending) (hi : c'.issued = c.issued) :
    c'.Ordered where
  increasing := h.increasing.sublist hp
  issued t ht := by rw [hi]; exact h.issued t (hp.subset ht)

/-- A new timer has a higher number than all others. -/
theorem schedule (h : c.Ordered) (hc : c.issued < UInt64.size) (delay : Duration) :
    (c.schedule delay).2.Ordered := by
  have hid : (c.schedule delay).1.number = c.issued :=
    NumberingScheduler.number_schedule (c := c) hc delay
  constructor
  · refine List.pairwise_append.mpr ⟨h.increasing, List.pairwise_singleton _ _, ?_⟩
    intro t ht u hu
    rw [List.mem_singleton.mp hu]
    exact Nat.lt_of_lt_of_eq (h.issued t ht) hid.symm
  · intro t ht
    rcases List.mem_append.mp ht with ht | ht
    · exact Nat.lt_succ_of_lt (h.issued t ht)
    · rw [List.mem_singleton.mp ht]
      exact Nat.lt_succ_of_le (Nat.le_of_eq hid)

/-- No two pending timers have the same id. -/
theorem eq_of_id (h : c.Ordered) {t u : Timer} (ht : t ∈ c.pending) (hu : u ∈ c.pending)
    (hid : t.id = u.id) : t = u := by
  obtain ⟨i, hi, rfl⟩ := List.getElem_of_mem ht
  obtain ⟨j, hj, rfl⟩ := List.getElem_of_mem hu
  have hlt := List.pairwise_iff_getElem.mp h.increasing
  rcases Nat.lt_trichotomy i j with hij | rfl | hij
  · exact absurd (hlt i j hi hj hij) (by simp [hid])
  · rfl
  · exact absurd (hlt j i hj hi hij) (by simp [hid])

theorem nodup (h : c.Ordered) : c.pending.Nodup :=
  h.increasing.imp fun hlt heq => by simp [heq] at hlt

/-- A timer that is taken out leaves none of its id behind. -/
theorem mem_erase_iff (h : c.Ordered) {t u : Timer} (ht : t ∈ c.pending) :
    u ∈ c.pending.erase t ↔ u ∈ c.pending ∧ u.id ≠ t.id := by
  rw [h.nodup.mem_erase_iff]
  constructor
  · rintro ⟨hne, hu⟩
    exact ⟨hu, fun hid => hne (h.eq_of_id hu ht hid)⟩
  · rintro ⟨hu, hne⟩
    exact ⟨fun heq => hne (congrArg Timer.id heq), hu⟩

/-- A pending timer is in the list exactly once. -/
theorem filter_id (h : c.Ordered) {t : Timer} (ht : t ∈ c.pending) :
    c.pending.filter (fun u => u.id = t.id) = [t] := by
  have hsame : ∀ u ∈ c.pending, decide (u.id = t.id) = (u == t) := by
    intro u hu
    rw [Bool.eq_iff_iff, decide_eq_true_iff, beq_iff_eq]
    exact ⟨h.eq_of_id hu ht, congrArg Timer.id⟩
  rw [List.filter_congr hsame, List.filter_beq, h.nodup.count, if_pos ht]
  rfl

end Ordered

/-- No pending timer is overdue. -/
def Current (c : VirtualClock) : Prop := ∀ t ∈ c.pending, c.now ≤ t.due

namespace Current

theorem new : VirtualClock.new.Current := by
  intro t ht
  cases ht

theorem schedule (h : c.Current) (delay : Duration) : (c.schedule delay).2.Current := by
  intro t ht
  rcases List.mem_append.mp ht with ht | ht
  · exact h t ht
  · rw [List.mem_singleton.mp ht]
    exact c.now.le_add delay

theorem cancel (h : c.Current) (id : TimerId) : (c.cancel id).Current :=
  fun t ht => h t (List.mem_filter.mp ht).1

/-- What fires is due no later than all the others. -/
theorem popDue (h : c.Current) (hpop : c.popDue deadline = some (id, c')) : c'.Current := by
  obtain ⟨t, _, _, _, hleast, rfl⟩ := popDue_cases hpop
  intro u hu
  have hu := List.mem_of_mem_erase hu
  have hnow := h u hu
  have hdue := hleast u hu
  rw [Duration.le_iff] at hnow hdue ⊢
  rw [Duration.nanos_later]
  exact Nat.max_le.mpr ⟨hnow, hdue⟩

/-- The clock may move on when nothing is due. -/
theorem advanceTo (h : c.Current) (hpop : c.popDue deadline = none) :
    (c.advanceTo deadline).Current := by
  intro t ht
  have hnow := h t ht
  have hdue := popDue_eq_none_iff.mp hpop t ht
  rw [Duration.le_iff] at hnow ⊢
  rw [Duration.lt_iff] at hdue
  rw [show (c.advanceTo deadline).now = c.now.later deadline from rfl, Duration.nanos_later]
  omega

end Current

end VirtualClock

end Downhill

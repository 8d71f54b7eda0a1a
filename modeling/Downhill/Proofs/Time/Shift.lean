import Downhill.Proofs.Time.Pending
import Mathlib.Data.List.Forall2

/-! # The same clock, later

A clock that has been used and holds no timers any more is like a new one, but for its reading and
for the number of the next timer.  Two such clocks stay alike whatever is asked of both: readings
and due times keep their distance `lag`, the numbers of timers their distance `offset`.

* `TimerId.Shifted`, `Timer.Shifted`, `VirtualClock.Shifted`: alike, at these distances.
* `Shifted.schedule`, `Shifted.cancel`, `Shifted.popDue`, `Shifted.advanceTo`: clocks that are alike
  answer alike and stay alike.  Only a new timer needs something for it: its due time must not be
  cut off at the longest duration, and its number must be an id.
* `TimerId.shift`: the distance between ids as a function on all words.
-/

namespace Downhill

variable {lag offset : Nat}

/-! ## 1. Ids -/

/-- The second timer was handed out `offset` timers later than the first. -/
def TimerId.Shifted (offset : Nat) (i i' : TimerId) : Prop := i'.number = i.number + offset

/-- The id that is `offset` further on, as words count. -/
def TimerId.shift (offset : Nat) (i : TimerId) : TimerId := ⟨i.raw + offset.toUInt64⟩

namespace TimerId

variable {i i' j j' : TimerId}

theorem shift_inj : i.shift offset = j.shift offset ↔ i = j := by
  cases i
  cases j
  simp [shift]

/-- Ids at a distance of `offset` that both are numbers of timers. -/
theorem Shifted.eq_shift (h : i.Shifted offset i') : i' = i.shift offset := by
  have hlt : i'.raw.toNat < UInt64.size := i'.raw.toNat_lt
  have hraw : i'.raw.toNat = (i.raw + offset.toUInt64).toNat := by
    rw [Shifted, number, number] at h
    rw [UInt64.toNat_add, Nat.toUInt64, UInt64.toNat_ofNat_of_lt' (by omega), h,
      Nat.mod_eq_of_lt (h ▸ hlt)]
  cases i'
  exact congrArg TimerId.mk (UInt64.toNat_inj.mp hraw)

theorem Shifted.inj (h : i.Shifted offset i') (hj : j.Shifted offset j') : i' = j' ↔ i = j := by
  rw [h.eq_shift, hj.eq_shift, shift_inj]

/-- Two counters at a distance hand out timers at that distance. -/
theorem Shifted.of_issued {n n' : Nat} (h : n' = n + offset) (hn : n' < UInt64.size) :
    Shifted offset ⟨n.toUInt64⟩ ⟨n'.toUInt64⟩ := by
  rw [Shifted, number_of_lt hn, number_of_lt (by omega), h]

end TimerId

/-! ## 2. Timers -/

/-- The second timer is due `lag` later than the first and was handed out `offset` timers later. -/
structure Timer.Shifted (lag offset : Nat) (t t' : Timer) : Prop where
  due : t'.due.nanos = t.due.nanos + lag
  id : t.id.Shifted offset t'.id

namespace Timer.Shifted

variable {t t' u u' : Timer}

theorem inj (h : t.Shifted lag offset t') (hu : u.Shifted lag offset u') : t' = u' ↔ t = u := by
  have hdue : t'.due = u'.due ↔ t.due = u.due := by
    have hnanos : t'.due.nanos = u'.due.nanos ↔ t.due.nanos = u.due.nanos := by
      rw [h.due, hu.due, Nat.add_right_cancel_iff]
    exact ⟨fun heq => Duration.ext_nanos (hnanos.mp (congrArg _ heq)),
      fun heq => Duration.ext_nanos (hnanos.mpr (congrArg _ heq))⟩
  have hid := h.id.inj hu.id
  cases t; cases u; cases t'; cases u'
  rw [Timer.mk.injEq, Timer.mk.injEq, hdue, hid]

/-- Which of two timers fires first does not depend on the distance. -/
theorem firesBefore (h : t.Shifted lag offset t') (hu : u.Shifted lag offset u') :
    t'.firesBefore u' = t.firesBefore u := by
  have hdue := h.due
  have hdueu := hu.due
  have hid : t'.id.number = t.id.number + offset := h.id
  have hidu : u'.id.number = u.id.number + offset := hu.id
  rw [Bool.eq_iff_iff, Timer.firesBefore_iff, Timer.firesBefore_iff]
  omega

end Timer.Shifted

namespace VirtualClock

open List (Forall₂)

/-- The timers that fire first are at the same place. -/
theorem earliest_shifted {ts ts' : List Timer} (h : Forall₂ (Timer.Shifted lag offset) ts ts') :
    Option.Rel (Timer.Shifted lag offset) (earliest ts) (earliest ts') := by
  induction h with
  | nil => exact .none
  | @cons t t' rest rest' ht _ ih =>
    unfold earliest
    cases hfirst : earliest rest with
    | none =>
      rw [hfirst] at ih
      cases hfirst' : earliest rest' with
      | none => exact .some ht
      | some u' => rw [hfirst'] at ih; cases ih
    | some u =>
      rw [hfirst] at ih
      cases hfirst' : earliest rest' with
      | none => rw [hfirst'] at ih; cases ih
      | some u' =>
        rw [hfirst'] at ih
        cases ih with
        | some hu =>
          simp only [hu.firesBefore ht]
          split
          · exact .some hu
          · exact .some ht

theorem erase_shifted {ts ts' : List Timer} {t t' : Timer} (ht : t.Shifted lag offset t')
    (h : Forall₂ (Timer.Shifted lag offset) ts ts') :
    Forall₂ (Timer.Shifted lag offset) (ts.erase t) (ts'.erase t') := by
  induction h with
  | nil => exact .nil
  | @cons u u' rest rest' hu hrest ih =>
    by_cases heq : u = t
    · have heq' : u' = t' := (hu.inj ht).mpr heq
      rw [heq, heq', List.erase_cons_head, List.erase_cons_head]
      exact hrest
    · have heq' : u' ≠ t' := fun h => heq ((hu.inj ht).mp h)
      rw [List.erase_cons_tail (by simpa using heq), List.erase_cons_tail (by simpa using heq')]
      exact .cons hu ih

/-! ## 3. Clocks -/

/-- The second clock reads `lag` more than the first and has handed out `offset` timers more, and
the pending timers are the same but for that. -/
structure Shifted (lag offset : Nat) (c c' : VirtualClock) : Prop where
  now : c'.now.nanos = c.now.nanos + lag
  issued : c'.issued = c.issued + offset
  pending : Forall₂ (Timer.Shifted lag offset) c.pending c'.pending

namespace Shifted

variable {c c' : VirtualClock} {deadline deadline' : Duration}

/-- A clock without timers is like a new one. -/
theorem new (h : c.pending = []) : VirtualClock.new.Shifted c.now.nanos c.issued c where
  now := (Nat.zero_add _).symm
  issued := (Nat.zero_add _).symm
  pending := by rw [h]; exact .nil

theorem schedule (h : c.Shifted lag offset c') {delay : Duration}
    (hfits : c'.now.nanos + delay.nanos ≤ Duration.longest.nanos) (hn : c'.issued < UInt64.size) :
    (c.schedule delay).1.Shifted offset (c'.schedule delay).1 ∧
      (c.schedule delay).2.Shifted lag offset (c'.schedule delay).2 := by
  have hid : (c.schedule delay).1.Shifted offset (c'.schedule delay).1 := .of_issued h.issued hn
  have hdue : (c'.now + delay).nanos = (c.now + delay).nanos + lag := by
    have := h.now
    rw [Duration.nanos_add, Duration.nanos_add]
    omega
  refine ⟨hid, h.now, ?_, List.rel_append h.pending (.cons ⟨hdue, hid⟩ .nil)⟩
  show c'.issued + 1 = c.issued + 1 + offset
  rw [h.issued]
  omega

theorem cancel (h : c.Shifted lag offset c') {i i' : TimerId} (hi : i.Shifted offset i') :
    (c.cancel i).Shifted lag offset (c'.cancel i') where
  now := h.now
  issued := h.issued
  pending := List.rel_filter (fun _ _ ht => by simp [ht.id.inj hi]) h.pending

/-- Nothing is due by either of two deadlines at the distance of the clocks, or the same timer. -/
theorem popDue (h : c.Shifted lag offset c')
    (hdeadline : deadline'.nanos = deadline.nanos + lag) :
    (c.popDue deadline = none ∧ c'.popDue deadline' = none) ∨
      ∃ i i' d d', c.popDue deadline = some (i, d) ∧ c'.popDue deadline' = some (i', d') ∧
        i.Shifted offset i' ∧ d.Shifted lag offset d' := by
  have hdue : Forall₂ (Timer.Shifted lag offset) (c.pending.filter (fun t => t.due ≤ deadline))
      (c'.pending.filter (fun t => t.due ≤ deadline')) := by
    refine List.rel_filter (fun t t' ht => ?_) h.pending
    have := ht.due
    simp only [decide_eq_true_eq, Duration.le_iff]
    omega
  have hfirst := earliest_shifted hdue
  unfold VirtualClock.popDue
  generalize earliest (c.pending.filter fun t => t.due ≤ deadline) = first at hfirst ⊢
  generalize earliest (c'.pending.filter fun t => t.due ≤ deadline') = first' at hfirst ⊢
  cases hfirst with
  | none => exact Or.inl ⟨rfl, rfl⟩
  | @some t t' ht =>
    refine Or.inr ⟨_, _, _, _, rfl, rfl, ht.id, ?_, h.issued, erase_shifted ht h.pending⟩
    have := h.now
    have := ht.due
    rw [Duration.nanos_later, Duration.nanos_later]
    omega

theorem advanceTo (h : c.Shifted lag offset c')
    (hdeadline : deadline'.nanos = deadline.nanos + lag) :
    (c.advanceTo deadline).Shifted lag offset (c'.advanceTo deadline') where
  now := by
    have := h.now
    rw [VirtualClock.advanceTo, VirtualClock.advanceTo, Duration.nanos_later, Duration.nanos_later]
    omega
  issued := h.issued
  pending := h.pending

end Shifted

end VirtualClock

end Downhill

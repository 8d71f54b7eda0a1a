import Downhill.Proofs.Time.Pending
import Mathlib.Data.List.Nodup

/-! # The history of a clock

A clock is asked to start a timer, to drop one, to fire the first that is due or all that are, or
only to move.  Whatever it is asked and in whatever order, every timer it has handed out is in one
place: it has fired, it was dropped while it was pending, or it is pending still.

* `ClockCall`, `ClockEntry`, `history`: what a clock can be asked, and the record of what it was
  asked and answered.
* `Accounts`: the invariant.  The timers handed out, each with its due time, are numbered from
  zero; they are the fired, the cancelled and the pending ones; and the pending ones still have the
  due times they were handed out with.
* `Accounts.entry`, `Kept.history`: one call moves timers from one place to another and loses none,
  and so does any number of them.
* `every_timer_accounted_for`: the laws of a history.
-/

namespace Downhill

/-! ## 1. Calls and their record -/

/-- Something to ask of a clock: to start or drop a timer, to fire the first one that is due, to let
time pass and fire what comes due, or to move on without firing anything. -/
inductive ClockCall where
  | schedule (delay : Duration)
  | cancel (id : TimerId)
  | popDue (deadline : Duration)
  | advance (elapsed : Duration)
  | advanceTo (deadline : Duration)
deriving DecidableEq

/-- The call starts a timer. -/
def ClockCall.starts : ClockCall → Bool
  | .schedule _ => true
  | _ => false

/-- One call, with the clock before and after it and the ids it was answered with. -/
structure ClockEntry where
  before : VirtualClock
  call : ClockCall
  answer : List TimerId
  after : VirtualClock
deriving DecidableEq

namespace VirtualClock

/-- The ids a call is answered with, and the clock after it. -/
def perform (c : VirtualClock) : ClockCall → List TimerId × VirtualClock
  | .schedule delay => ([(c.schedule delay).1], (c.schedule delay).2)
  | .cancel id => ([], c.cancel id)
  | .popDue deadline =>
    match c.popDue deadline with
    | none => ([], c)
    | some (id, c') => ([id], c')
  | .advance elapsed => c.advance elapsed
  | .advanceTo deadline => ([], c.advanceTo deadline)

/-- The record of one call. -/
def entry (c : VirtualClock) (call : ClockCall) : ClockEntry :=
  ⟨c, call, (c.perform call).1, (c.perform call).2⟩

/-- The record of some calls. -/
def history : VirtualClock → List ClockCall → List ClockEntry
  | _, [] => []
  | c, call :: rest => c.entry call :: (c.perform call).2.history rest

/-- The clock after some calls. -/
def after : VirtualClock → List ClockCall → VirtualClock
  | c, [] => c
  | c, call :: rest => (c.perform call).2.after rest

end VirtualClock

namespace ClockEntry

/-- The timer that was started, with its due time. -/
def starts (e : ClockEntry) : List (TimerId × Duration) :=
  match e.call with
  | .schedule delay => e.answer.map fun id => (id, e.before.now + delay)
  | _ => []

/-- The timers that fired. -/
def fires (e : ClockEntry) : List TimerId :=
  match e.call with
  | .popDue _ | .advance _ => e.answer
  | _ => []

/-- The timer that was dropped, if it was pending. -/
def cancels (e : ClockEntry) : List TimerId :=
  match e.call with
  | .cancel id => if e.before.isPending id then [id] else []
  | _ => []

/-- The reading of the clock up to which timers were to fire. -/
def deadline (e : ClockEntry) : Option Duration :=
  match e.call with
  | .popDue deadline => some deadline
  | .advance elapsed => some (e.before.now + elapsed)
  | _ => none

/-- What fires was handed out with a due time that the deadline allows and the clock has reached
by then. -/
def Timely (handed : List (TimerId × Duration)) (e : ClockEntry) : Prop :=
  ∀ id ∈ e.fires, ∃ deadline due, e.deadline = some deadline ∧
    (id, due) ∈ handed ∧ due ≤ deadline ∧ due ≤ e.after.now

end ClockEntry

/-- The timers handed out, each with its due time. -/
def timersHanded (record : List ClockEntry) : List (TimerId × Duration) :=
  record.flatMap ClockEntry.starts

/-- The timers that have fired. -/
def timersFired (record : List ClockEntry) : List TimerId := record.flatMap ClockEntry.fires

/-- The timers that were dropped while they were pending. -/
def timersCancelled (record : List ClockEntry) : List TimerId := record.flatMap ClockEntry.cancels

/-! ## 2. Where the timers are -/

/-- The timers handed out, each with its due time, are accounted for.  They were numbered as they
were handed out, and each of them has either fired, or was cancelled, or is pending with the due
time it was handed out with. -/
structure Accounts (handed : List (TimerId × Duration)) (fired cancelled : List TimerId)
    (c : VirtualClock) : Prop where
  ordered : c.Ordered
  numbered : handed.map (fun p => p.1.number) = List.range c.issued
  parted : (fired ++ cancelled ++ c.pending.map Timer.id).Perm (handed.map Prod.fst)
  due : ∀ t ∈ c.pending, (t.id, t.due) ∈ handed

namespace Accounts

variable {handed : List (TimerId × Duration)} {fired cancelled : List TimerId}
  {c c' : VirtualClock} {id : TimerId} {deadline : Duration}

theorem new : Accounts [] [] [] .new where
  ordered := .new
  numbered := rfl
  parted := .nil
  due t ht := by cases ht

/-- No two timers have the same id. -/
theorem nodup (h : Accounts handed fired cancelled c) : (handed.map Prod.fst).Nodup := by
  have hnumbers : ((handed.map Prod.fst).map TimerId.number).Nodup := by
    rw [List.map_map]
    exact h.numbered ▸ List.nodup_range
  exact hnumbers.of_map _

/-- A timer has one due time. -/
theorem due_unique (h : Accounts handed fired cancelled c) {due due' : Duration}
    (hd : (id, due) ∈ handed) (hd' : (id, due') ∈ handed) : due = due' :=
  congrArg Prod.snd (List.inj_on_of_nodup_map h.nodup hd hd' rfl)

/-- A new timer is pending, and its number is the next one. -/
theorem schedule (h : Accounts handed fired cancelled c) (hc : c.issued < UInt64.size)
    (delay : Duration) :
    Accounts (handed ++ [((c.schedule delay).1, c.now + delay)]) fired cancelled
      (c.schedule delay).2 where
  ordered := h.ordered.schedule hc delay
  numbered := by
    have hid : (c.schedule delay).1.number = c.issued :=
      NumberingScheduler.number_schedule (c := c) hc delay
    rw [List.map_append, h.numbered, List.map_singleton, hid]
    exact List.range_succ.symm
  parted := by
    rw [show (c.schedule delay).2.pending =
      c.pending ++ [⟨c.now + delay, (c.schedule delay).1⟩] from rfl, List.map_append,
      List.map_append, ← List.append_assoc]
    exact h.parted.append_right _
  due t ht := by
    rcases List.mem_append.mp ht with ht | ht
    · exact List.mem_append_left _ (h.due t ht)
    · rw [List.mem_singleton.mp ht]
      exact List.mem_append_right _ (List.mem_singleton.mpr rfl)

/-- A timer that is cancelled while it is pending is not pending any more. -/
theorem cancel (h : Accounts handed fired cancelled c) (hid : c.isPending id = true) :
    Accounts handed fired (cancelled ++ [id]) (c.cancel id) where
  ordered := h.ordered.sublist List.filter_sublist rfl
  numbered := h.numbered
  parted := by
    obtain ⟨t, ht, hidt⟩ := List.any_eq_true.mp hid
    rw [beq_iff_eq] at hidt
    subst hidt
    -- The timers with the id come to one.
    have hone : c.pending.filter (fun u => u.id == t.id) = [t] := h.ordered.filter_id ht
    have hout : (t :: (c.cancel t.id).pending).Perm c.pending := by
      have hsplit := List.filter_append_perm (fun u => u.id == t.id) c.pending
      rw [hone] at hsplit
      exact hsplit
    have hmap : (t.id :: (c.cancel t.id).pending.map Timer.id).Perm (c.pending.map Timer.id) :=
      hout.map Timer.id
    refine List.Perm.trans ?_ h.parted
    rw [List.append_assoc, List.append_assoc, List.append_assoc]
    exact (hmap.append_left cancelled).append_left fired
  due t ht := h.due t (List.mem_filter.mp ht).1

/-- A timer that fires is not pending any more; it was handed out with a due time that the call
allows and the clock has reached. -/
theorem popDue (h : Accounts handed fired cancelled c)
    (hpop : c.popDue deadline = some (id, c')) :
    Accounts handed (fired ++ [id]) cancelled c' ∧
      ∃ due, (id, due) ∈ handed ∧ due ≤ deadline ∧ due ≤ c'.now := by
  obtain ⟨t, ht, rfl, hdue, _, rfl⟩ := VirtualClock.popDue_cases hpop
  refine ⟨⟨h.ordered.sublist List.erase_sublist rfl, h.numbered, ?_, fun u hu =>
    h.due u (List.mem_of_mem_erase hu)⟩, t.due, h.due t ht, hdue, ?_⟩
  · have hmap : (c.pending.map Timer.id).Perm (t.id :: (c.pending.erase t).map Timer.id) :=
      (List.perm_cons_erase ht).map Timer.id
    refine List.Perm.trans ?_ h.parted
    rw [List.append_assoc, List.append_assoc, List.append_assoc]
    refine List.Perm.append_left fired ?_
    show (t.id :: (cancelled ++ (c.pending.erase t).map Timer.id)).Perm _
    exact List.perm_middle.symm.trans (hmap.symm.append_left cancelled)
  · rw [Duration.le_iff, Duration.nanos_later]
    exact Nat.le_max_right _ _

/-- The clock may move. -/
theorem advanceTo (h : Accounts handed fired cancelled c) (deadline : Duration) :
    Accounts handed fired cancelled (c.advanceTo deadline) :=
  ⟨h.ordered.sublist (.refl _) rfl, h.numbered, h.parted, h.due⟩

end Accounts

/-! ## 3. One call -/

namespace VirtualClock

variable {c c' : VirtualClock} {id : TimerId} {deadline : Duration}

theorem perform_popDue_none (h : c.popDue deadline = none) :
    c.perform (.popDue deadline) = ([], c) := by
  simp only [perform, h]

theorem perform_popDue_some (h : c.popDue deadline = some (id, c')) :
    c.perform (.popDue deadline) = ([id], c') := by
  simp only [perform, h]

/-! No call moves the clock back, and only a new timer makes it count on. -/

theorem now_le_popDue (h : c.popDue deadline = some (id, c')) : c.now ≤ c'.now := by
  obtain ⟨t, _, _, _, _, rfl⟩ := popDue_cases h
  rw [Duration.le_iff, Duration.nanos_later]
  exact Nat.le_max_left _ _

theorem now_le_popAll (deadline : Duration) : ∀ (fuel : Nat) (c : VirtualClock),
    c.now ≤ (popAll deadline fuel c).2.now
  | 0, _ => Nat.le_refl _
  | fuel + 1, c => by
    unfold popAll
    split
    · exact Nat.le_refl _
    · rename_i hpop
      exact Nat.le_trans (now_le_popDue hpop) (now_le_popAll deadline fuel _)

theorem now_le_advanceTo (c : VirtualClock) (deadline : Duration) :
    c.now ≤ (c.advanceTo deadline).now := by
  rw [advanceTo, Duration.le_iff, Duration.nanos_later]
  exact Nat.le_max_left _ _

theorem now_le_perform (c : VirtualClock) (call : ClockCall) : c.now ≤ (c.perform call).2.now := by
  cases call with
  | schedule | cancel => exact Nat.le_refl _
  | popDue deadline =>
    cases hpop : c.popDue deadline with
    | none => rw [perform_popDue_none hpop]; exact Nat.le_refl _
    | some fired => rw [perform_popDue_some hpop]; exact now_le_popDue hpop
  | advance elapsed => exact Nat.le_trans (now_le_popAll _ _ c) (now_le_advanceTo _ _)
  | advanceTo deadline => exact now_le_advanceTo c deadline

theorem issued_popAll (deadline : Duration) : ∀ (fuel : Nat) (c : VirtualClock),
    (popAll deadline fuel c).2.issued = c.issued
  | 0, _ => rfl
  | fuel + 1, c => by
    unfold popAll
    split
    · rfl
    · rename_i hpop
      exact (issued_popAll deadline fuel _).trans (NumberingScheduler.issued_popDue (c := c) hpop)

theorem issued_perform (c : VirtualClock) (call : ClockCall) :
    (c.perform call).2.issued = c.issued + if call.starts then 1 else 0 := by
  cases call with
  | popDue deadline =>
    cases hpop : c.popDue deadline with
    | none => rw [perform_popDue_none hpop]; rfl
    | some fired =>
      rw [perform_popDue_some hpop]
      exact NumberingScheduler.issued_popDue (c := c) hpop
  | advance elapsed => exact issued_popAll _ _ c
  | _ => rfl

theorem cancel_of_not_pending (h : c.isPending id = false) : c.cancel id = c := by
  have hkeep : c.pending.filter (fun t => t.id != id) = c.pending := by
    refine List.filter_eq_self.mpr fun t ht => ?_
    simpa using List.any_eq_false.mp h t ht
  rw [cancel, hkeep]

end VirtualClock

namespace Accounts

variable {handed : List (TimerId × Duration)} {fired cancelled : List TimerId}
  {c : VirtualClock}

/-- The clock may fire what is due, one timer after the other. -/
theorem popAll (deadline : Duration) : ∀ (fuel : Nat) {fired : List TimerId} {c : VirtualClock},
    Accounts handed fired cancelled c →
      Accounts handed (fired ++ (VirtualClock.popAll deadline fuel c).1) cancelled
          (VirtualClock.popAll deadline fuel c).2 ∧
        ∀ id ∈ (VirtualClock.popAll deadline fuel c).1, ∃ due, (id, due) ∈ handed ∧
          due ≤ deadline ∧ due ≤ (VirtualClock.popAll deadline fuel c).2.now
  | 0, fired, c, h => ⟨(List.append_nil fired).symm ▸ h, List.forall_mem_nil _⟩
  | fuel + 1, fired, c, h => by
    unfold VirtualClock.popAll
    split
    · exact ⟨(List.append_nil fired).symm ▸ h, List.forall_mem_nil _⟩
    · rename_i id c' hpop
      obtain ⟨hfired, due, hhanded, hdue, hnow⟩ := h.popDue hpop
      obtain ⟨hrest, hdues⟩ := popAll deadline fuel hfired
      rw [List.append_assoc] at hrest
      refine ⟨hrest, List.forall_mem_cons.mpr ⟨⟨due, hhanded, hdue, ?_⟩, hdues⟩⟩
      exact Nat.le_trans hnow (VirtualClock.now_le_popAll _ _ _)

/-- **A call moves timers and loses none**, and it fires only what is due. -/
theorem entry (h : Accounts handed fired cancelled c) (call : ClockCall)
    (hn : (c.perform call).2.issued < UInt64.size) :
    Accounts (handed ++ (c.entry call).starts) (fired ++ (c.entry call).fires)
        (cancelled ++ (c.entry call).cancels) (c.perform call).2 ∧
      (c.entry call).Timely handed := by
  cases call with
  | schedule delay =>
    refine ⟨?_, List.forall_mem_nil _⟩
    show Accounts _ (fired ++ []) (cancelled ++ []) _
    rw [List.append_nil, List.append_nil]
    exact h.schedule (Nat.lt_of_succ_lt hn) delay
  | cancel id =>
    refine ⟨?_, List.forall_mem_nil _⟩
    show Accounts (handed ++ []) (fired ++ [])
      (cancelled ++ if c.isPending id then [id] else []) (c.cancel id)
    rw [List.append_nil, List.append_nil]
    cases hid : c.isPending id with
    | true => exact h.cancel hid
    | false =>
      rw [VirtualClock.cancel_of_not_pending hid, if_neg Bool.false_ne_true, List.append_nil]
      exact h
  | popDue deadline =>
    show Accounts (handed ++ []) (fired ++ (c.perform _).1) (cancelled ++ []) (c.perform _).2 ∧
      ∀ id ∈ (c.perform _).1, ∃ d due, some deadline = some d ∧
        (id, due) ∈ handed ∧ due ≤ d ∧ due ≤ (c.perform _).2.now
    rw [List.append_nil, List.append_nil]
    cases hpop : c.popDue deadline with
    | none =>
      rw [VirtualClock.perform_popDue_none hpop, List.append_nil]
      exact ⟨h, List.forall_mem_nil _⟩
    | some first =>
      rw [VirtualClock.perform_popDue_some hpop]
      obtain ⟨hfired, due, hdue⟩ := h.popDue hpop
      exact ⟨hfired, List.forall_mem_singleton.mpr ⟨deadline, due, rfl, hdue⟩⟩
  | advance elapsed =>
    obtain ⟨hfired, hdues⟩ := h.popAll (c.now + elapsed) c.pending.length
    constructor
    · show Accounts (handed ++ []) _ (cancelled ++ []) _
      rw [List.append_nil, List.append_nil]
      exact hfired.advanceTo _
    · intro id hid
      obtain ⟨due, hhanded, hdue, hnow⟩ := hdues id hid
      exact ⟨c.now + elapsed, due, rfl, hhanded, hdue,
        Nat.le_trans hnow (VirtualClock.now_le_advanceTo _ _)⟩
  | advanceTo deadline =>
    refine ⟨?_, List.forall_mem_nil _⟩
    show Accounts (handed ++ []) (fired ++ []) (cancelled ++ []) (c.advanceTo deadline)
    rw [List.append_nil, List.append_nil, List.append_nil]
    exact h.advanceTo deadline

end Accounts

/-! ## 4. A whole history -/

/-- The record accounts for every timer of the clock, and nothing in it fired early. -/
structure Kept (record : List ClockEntry) (c : VirtualClock) : Prop where
  accounts : Accounts (timersHanded record) (timersFired record) (timersCancelled record) c
  timely : ∀ e ∈ record, e.Timely (timersHanded record)

namespace Kept

variable {record : List ClockEntry} {c : VirtualClock}

theorem new : Kept [] .new := ⟨.new, List.forall_mem_nil _⟩

/-- A record is kept by writing down one more call. -/
theorem entry (h : Kept record c) (call : ClockCall)
    (hn : (c.perform call).2.issued < UInt64.size) :
    Kept (record ++ [c.entry call]) (c.perform call).2 := by
  obtain ⟨haccounts, htimely⟩ := h.accounts.entry call hn
  have hhanded : timersHanded record ⊆ timersHanded (record ++ [c.entry call]) := by
    rw [timersHanded, timersHanded, List.flatMap_append]
    exact List.subset_append_left _ _
  have hlater : ∀ e : ClockEntry, e.Timely (timersHanded record) →
      e.Timely (timersHanded (record ++ [c.entry call])) := by
    intro e he id hid
    obtain ⟨deadline, due, hdeadline, hmem, hdue⟩ := he id hid
    exact ⟨deadline, due, hdeadline, hhanded hmem, hdue⟩
  constructor
  · simpa only [timersHanded, timersFired, timersCancelled, List.flatMap_append,
      List.flatMap_singleton] using haccounts
  · intro e he
    rcases List.mem_append.mp he with he | he
    · exact hlater e (h.timely e he)
    · rw [List.mem_singleton.mp he]
      exact hlater _ htimely

/-- So is it by writing down many. -/
theorem history : ∀ (calls : List ClockCall) {record : List ClockEntry} {c : VirtualClock},
    Kept record c → c.issued + calls.countP ClockCall.starts < UInt64.size →
      Kept (record ++ c.history calls) (c.after calls)
  | [], record, c, h, _ => (List.append_nil record).symm ▸ h
  | call :: rest, record, c, h, hn => by
    have hissued := c.issued_perform call
    rw [List.countP_cons] at hn
    have hkept := (h.entry call (by omega)).history rest (by omega)
    rw [List.append_assoc] at hkept
    exact hkept

end Kept

namespace VirtualClock

/-- A history goes on where its first part ends. -/
theorem history_append (first rest : List ClockCall) : ∀ c : VirtualClock,
    c.history (first ++ rest) = c.history first ++ (c.after first).history rest := by
  induction first with
  | nil => intro c; rfl
  | cons call first ih => intro c; exact congrArg (c.entry call :: ·) (ih _)

theorem after_append (first rest : List ClockCall) : ∀ c : VirtualClock,
    c.after (first ++ rest) = (c.after first).after rest := by
  induction first with
  | nil => intro c; rfl
  | cons call first ih => intro c; exact ih _

theorem length_history (calls : List ClockCall) : ∀ c : VirtualClock,
    (c.history calls).length = calls.length := by
  induction calls with
  | nil => intro c; rfl
  | cons call rest ih => intro c; exact congrArg (· + 1) (ih _)

theorem now_le_after (calls : List ClockCall) : ∀ c : VirtualClock,
    c.now ≤ (c.after calls).now := by
  induction calls with
  | nil => intro c; exact Nat.le_refl _
  | cons call rest ih => intro c; exact Nat.le_trans (c.now_le_perform call) (ih _)

/-- Cancelling a timer that is not pending can be left out. -/
theorem history_cancel {c : VirtualClock} {id : TimerId} (past rest : List ClockCall)
    (h : (c.after past).isPending id = false) :
    (c.history (past ++ .cancel id :: rest)).eraseIdx past.length = c.history (past ++ rest) ∧
      c.after (past ++ .cancel id :: rest) = c.after (past ++ rest) := by
  have hsame : ((c.after past).perform (.cancel id)).2 = c.after past := cancel_of_not_pending h
  constructor
  · rw [history_append, history_append, ← length_history past c,
      List.eraseIdx_append_of_length_le (Nat.le_refl _), Nat.sub_self, history, hsame]
    rfl
  · rw [after_append, after_append, after, hsame]

end VirtualClock

/-- **Every timer is accounted for.**  However a new clock is used, as long as it hands out fewer
timers than there are ids,

* the timers it hands out have different ids,
* each of them has fired, was cancelled while it was pending, or is pending, and no two of these,
  and none has fired twice,
* cancelling a timer that is not pending changes nothing that happens then or later,
* a timer fires in a call that reaches its due time, with the clock at its due time or later, and
* the clock does not go back. -/
theorem every_timer_accounted_for (calls : List ClockCall)
    (hn : calls.countP ClockCall.starts < UInt64.size) :
    let record := VirtualClock.new.history calls
    let places := timersFired record ++ timersCancelled record ++
      (VirtualClock.new.after calls).pending.map Timer.id
    ((timersHanded record).map Prod.fst).Nodup ∧
      places.Perm ((timersHanded record).map Prod.fst) ∧ places.Nodup ∧
      (∀ past id rest, calls = past ++ .cancel id :: rest →
        (VirtualClock.new.after past).isPending id = false →
        record.eraseIdx past.length = VirtualClock.new.history (past ++ rest) ∧
          VirtualClock.new.after calls = VirtualClock.new.after (past ++ rest)) ∧
      (∀ e ∈ record, ∀ f ∈ record, ∀ delay id, e.call = .schedule delay → id ∈ e.answer →
        id ∈ f.fires → ∃ deadline, f.deadline = some deadline ∧
          e.before.now + delay ≤ deadline ∧ e.before.now + delay ≤ f.after.now) ∧
      ∀ earlier, earlier <+: calls →
        (VirtualClock.new.after earlier).now ≤ (VirtualClock.new.after calls).now := by
  intro record places
  have hkept : Kept record (VirtualClock.new.after calls) :=
    Kept.new.history calls (by simpa [VirtualClock.new] using hn)
  have hparted := hkept.accounts.parted
  refine ⟨hkept.accounts.nodup, hparted, hparted.nodup_iff.mpr hkept.accounts.nodup, ?_, ?_, ?_⟩
  · rintro past id rest hcalls hid
    show (VirtualClock.new.history calls).eraseIdx past.length = _ ∧ _
    rw [hcalls]
    exact VirtualClock.history_cancel past rest hid
  · intro e he f hf delay id hcall hid hfires
    obtain ⟨deadline, due, hdeadline, hhanded, hdue, hnow⟩ := hkept.timely f hf id hfires
    -- The timer was handed out with one due time only.
    have hstart : (id, e.before.now + delay) ∈ timersHanded record := by
      refine List.mem_flatMap.mpr ⟨e, he, ?_⟩
      rw [ClockEntry.starts, hcall]
      exact List.mem_map.mpr ⟨id, hid, rfl⟩
    rw [hkept.accounts.due_unique hstart hhanded]
    exact ⟨deadline, hdeadline, hdue, hnow⟩
  · rintro earlier ⟨rest, rfl⟩
    rw [VirtualClock.after_append]
    exact VirtualClock.now_le_after rest _

/-- Three timers: the second fires first, the third is cancelled, and the first fires when it is
overdue, after an unknown timer was cancelled and the clock was moved past it. -/
theorem three_timers_accounted_for :
    let calls : List ClockCall :=
      [.schedule ⟨10, by decide⟩, .schedule ⟨5, by decide⟩, .schedule ⟨7, by decide⟩,
        .cancel ⟨2⟩, .popDue ⟨6, by decide⟩, .cancel ⟨9⟩, .advanceTo ⟨20, by decide⟩,
        .advance .zero]
    let record := VirtualClock.new.history calls
    calls.countP ClockCall.starts < UInt64.size ∧
      timersFired record = [⟨1⟩, ⟨0⟩] ∧ timersCancelled record = [⟨2⟩] ∧
      (timersFired record ++ timersCancelled record).Perm ((timersHanded record).map Prod.fst) ∧
      record.eraseIdx 5 = VirtualClock.new.history (calls.eraseIdx 5) ∧
      ∀ e ∈ record, ∀ f ∈ record, ∀ delay id, e.call = .schedule delay → id ∈ e.answer →
        id ∈ f.fires → e.before.now + delay ≤ f.after.now := by
  intro calls record
  have hn : calls.countP ClockCall.starts < UInt64.size := by decide
  obtain ⟨_, hparted, _, hcancel, hdue, _⟩ := every_timer_accounted_for calls hn
  have hnone : (VirtualClock.new.after calls).pending = [] := by decide
  rw [hnone, List.map_nil, List.append_nil] at hparted
  refine ⟨hn, by decide, by decide, hparted, ?_, ?_⟩
  · exact (hcancel (calls.take 5) ⟨9⟩ (calls.drop 6) rfl (by decide)).1
  · intro e he f hf delay id hcall hid hfires
    obtain ⟨_, _, _, hnow⟩ := hdue e he f hf delay id hcall hid hfires
    exact hnow

end Downhill

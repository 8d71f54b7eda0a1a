import Downhill.Proofs.Time.History

/-! # What fires when time passes

A clock that is advanced takes out one timer after the other, each time the one that fires first,
until none is due by the deadline; then it goes there.  Nothing in this loop speaks of sorting, and
nothing in it says that it ends.

* `VirtualClock.Drains`: the loop as a relation.  `drains_advance`: an advance runs it to its end.
* `Drains.fires`: what the loop takes out is in firing order, and it is all that was due.
* `pairwise_sorted`: so is a stable sort by due time of the pending timers that are due, and there
  is only one such list.
* `Drains.cut`: on its way the clock may stop at an earlier deadline.
* `advance_fires_due_timers`: an advance in terms of the pending timers alone.
-/

namespace Downhill

/-! ## 1. Firing order -/

namespace Timer

/-- A timer fires before those that are due later and, of those due at the same time, before the
ones started later. -/
theorem firesBefore_iff_due {t u : Timer} :
    t.firesBefore u = true ↔ t.due < u.due ∨ t.due = u.due ∧ t.id.number < u.id.number := by
  have hdue : t.due = u.due ↔ t.due.nanos = u.due.nanos :=
    ⟨congrArg Duration.nanos, Duration.ext_nanos⟩
  rw [firesBefore_iff, hdue, Duration.lt_iff]

theorem not_firesBefore_of_firesBefore {t u : Timer} (h : t.firesBefore u = true) :
    u.firesBefore t = false := by
  rw [firesBefore_iff] at h
  rw [firesBefore_eq_false_iff]
  omega

/-- There is one way to put timers into firing order. -/
theorem eq_of_perm_of_firesBefore {ts us : List Timer} (h : ts.Perm us)
    (hts : ts.Pairwise fun t u => t.firesBefore u = true)
    (hus : us.Pairwise fun t u => t.firesBefore u = true) : ts = us := by
  refine List.Perm.eq_of_pairwise (fun t u _ _ htu hut => ?_) hts hus h
  rw [not_firesBefore_of_firesBefore htu] at hut
  cases hut

/-! Due times are compared with `≤`, as a sort asks for it. -/

theorem due_le_trans (t u v : Timer) (htu : decide (t.due ≤ u.due) = true)
    (huv : decide (u.due ≤ v.due) = true) : decide (t.due ≤ v.due) = true := by
  rw [decide_eq_true_iff] at htu huv ⊢
  exact Nat.le_trans htu huv

theorem due_le_total (t u : Timer) : (decide (t.due ≤ u.due) || decide (u.due ≤ t.due)) = true := by
  rw [Bool.or_eq_true, decide_eq_true_iff, decide_eq_true_iff]
  exact Nat.le_total t.due.nanos u.due.nanos

/-- **A stable sort by due time is the firing order** of timers that stand in the order in which
they were started.  By induction on the list: the first timer goes behind those that are due
earlier, and in front of all that are due at the same time. -/
theorem pairwise_sorted : ∀ {ts : List Timer},
    (ts.Pairwise fun t u => t.id.number < u.id.number) →
      (ts.mergeSort fun t u => t.due ≤ u.due).Pairwise fun t u => t.firesBefore u = true
  | [], _ => by simp
  | t :: rest, h => by
    obtain ⟨hfirst, hrest⟩ := List.pairwise_cons.mp h
    obtain ⟨early, late, hsort, hsplit, hearly⟩ :=
      List.mergeSort_cons due_le_trans due_le_total t rest
    have ih := pairwise_sorted hrest
    have hsorted := List.pairwise_mergeSort due_le_trans due_le_total (t :: rest)
    rw [hsplit] at ih
    rw [hsort] at hsorted ⊢
    obtain ⟨hpearly, hplate, hbetween⟩ := List.pairwise_append.mp ih
    have hlate : ∀ u ∈ late, t.firesBefore u = true := by
      intro u hu
      have hdue := (List.pairwise_cons.mp (List.pairwise_append.mp hsorted).2.1).1 u hu
      have hmem : u ∈ rest.mergeSort fun t u => t.due ≤ u.due := by
        rw [hsplit]
        exact List.mem_append_right _ hu
      have hnumber := hfirst u (List.mem_mergeSort.mp hmem)
      rw [decide_eq_true_iff, Duration.le_iff] at hdue
      rw [firesBefore_iff]
      omega
    refine List.pairwise_append.mpr ⟨hpearly, List.pairwise_cons.mpr ⟨hlate, hplate⟩, ?_⟩
    intro u hu v hv
    rcases List.mem_cons.mp hv with rfl | hv
    · have hdue := hearly u hu
      rw [Bool.not_eq_true', decide_eq_false_iff_not, Duration.le_iff] at hdue
      rw [firesBefore_iff]
      omega
    · exact hbetween u hu v hv

end Timer

namespace VirtualClock

variable {c c' c'' : VirtualClock} {deadline : Duration} {id : TimerId} {ids ids' : List TimerId}

/-! ## 2. The loop -/

/-- Timers due by the deadline are taken out one after the other, until there are none: these
timers, and the clock after them. -/
inductive Drains (deadline : Duration) :
    VirtualClock → List TimerId → VirtualClock → Prop where
  | done {c : VirtualClock} (hpop : c.popDue deadline = none) : Drains deadline c [] c
  | next {c c' c'' : VirtualClock} {id : TimerId} {ids : List TimerId}
      (hpop : c.popDue deadline = some (id, c')) (h : Drains deadline c' ids c'') :
      Drains deadline c (id :: ids) c''

/-- **The loop ends**: each time there is one timer less. -/
theorem drains_popAll (deadline : Duration) : ∀ (fuel : Nat) {c : VirtualClock},
    c.pending.length ≤ fuel →
      Drains deadline c (popAll deadline fuel c).1 (popAll deadline fuel c).2
  | 0, c, hlength => by
    refine .done (popDue_eq_none_iff.mpr ?_)
    rw [List.eq_nil_of_length_eq_zero (Nat.le_zero.mp hlength)]
    exact List.forall_mem_nil _
  | fuel + 1, c, hlength => by
    unfold popAll
    split
    · rename_i hpop
      exact .done hpop
    · rename_i id c' hpop
      obtain ⟨t, ht, _, _, _, heq⟩ := popDue_cases hpop
      have hless : c'.pending.length ≤ fuel := by
        rw [heq, List.length_erase_of_mem ht]
        omega
      exact .next hpop (drains_popAll deadline fuel hless)

theorem drains_advance (c : VirtualClock) (elapsed : Duration) :
    ∃ last, Drains (c.now + elapsed) c (c.advance elapsed).1 last ∧
      (c.advance elapsed).2 = last.advanceTo (c.now + elapsed) :=
  ⟨_, drains_popAll _ _ (Nat.le_refl _), rfl⟩

namespace Drains

/-- It ends in one way. -/
theorem unique (h : Drains deadline c ids c') (h' : Drains deadline c ids' c'') :
    ids = ids' ∧ c' = c'' := by
  induction h generalizing ids' with
  | done hpop =>
    cases h' with
    | done _ => exact ⟨rfl, rfl⟩
    | next hpop' _ => rw [hpop] at hpop'; cases hpop'
  | next hpop _ ih =>
    cases h' with
    | done hpop' => rw [hpop] at hpop'; cases hpop'
    | next hpop' h' =>
      rw [hpop] at hpop'
      cases hpop'
      obtain ⟨hids, hlast⟩ := ih h'
      exact ⟨congrArg _ hids, hlast⟩

/-- A clock that is not past the deadline does not go past it. -/
theorem now_le (h : Drains deadline c ids c') (hnow : c.now ≤ deadline) : c'.now ≤ deadline := by
  induction h with
  | done _ => exact hnow
  | next hpop _ ih => exact ih (now_popDue_le hpop hnow)

/-- **The loop takes out all that is due, in firing order**, and leaves the rest as it is. -/
theorem fires (h : Drains deadline c ids c') (hc : c.Ordered) :
    ∃ ts : List Timer, ids = ts.map Timer.id ∧
      ts.Perm (c.pending.filter fun t => t.due ≤ deadline) ∧
      (ts.Pairwise fun t u => t.firesBefore u = true) ∧
      c' = { c with now := c'.now, pending := c.pending.filter fun t => ¬t.due ≤ deadline } := by
  induction h with
  | @done c hpop =>
    have hlate : ∀ t ∈ c.pending, ¬t.due ≤ deadline := fun t ht =>
      Nat.not_le.mpr (popDue_eq_none_iff.mp hpop t ht)
    have hnone : c.pending.filter (fun t => t.due ≤ deadline) = [] :=
      List.filter_eq_nil_iff.mpr fun t ht => by simpa using hlate t ht
    have hall : c.pending.filter (fun t => ¬t.due ≤ deadline) = c.pending :=
      List.filter_eq_self.mpr fun t ht => by simpa using hlate t ht
    refine ⟨[], rfl, ?_, .nil, ?_⟩
    · rw [hnone]
    · rw [hall]
  | @next c c' c'' id ids hpop h ih =>
    obtain ⟨t, ht, rfl, hdue, hleast, rfl⟩ := popDue_eq_some_iff.mp hpop
    obtain ⟨ts, rfl, hperm, hpairwise, hlast⟩ := ih (hc.sublist List.erase_sublist rfl)
    have hmem : t ∈ c.pending.filter fun t => t.due ≤ deadline :=
      List.mem_filter.mpr ⟨ht, by simpa using hdue⟩
    refine ⟨t :: ts, rfl, ?_, List.pairwise_cons.mpr ⟨fun u hu => ?_, hpairwise⟩, ?_⟩
    · refine List.Perm.trans ?_ (List.perm_cons_erase hmem).symm
      rw [List.erase_filter]
      exact hperm.cons t
    · -- What is taken out later was pending too and is another timer.
      have hleft := (List.mem_filter.mp (hperm.subset hu)).1
      obtain ⟨hne, hpending⟩ := hc.nodup.mem_erase_iff.mp hleft
      by_contra hnot
      rw [Bool.not_eq_true] at hnot
      exact hne (Timer.eq_of_not_firesBefore (hleast u hpending) hnot)
    · have hkept : (c.pending.erase t).filter (fun t => ¬t.due ≤ deadline) =
          c.pending.filter fun t => ¬t.due ≤ deadline := by
        rw [← List.erase_filter]
        exact List.erase_of_not_mem fun hmem => by simpa [hdue] using (List.mem_filter.mp hmem).2
      rw [hlast, hkept]

/-- **The clock may stop on its way.**  By induction on the loop up to the earlier deadline: a
timer due by it is the first one due by the later deadline, too. -/
theorem cut {early : Duration} (h : Drains early c ids c') (hle : early ≤ deadline)
    (h' : Drains deadline (c'.advanceTo early) ids' c'') :
    ∃ last, Drains deadline c (ids ++ ids') last ∧
      last.advanceTo deadline = c''.advanceTo deadline := by
  induction h with
  | @done c hpop =>
    have hsame : (c.advanceTo early).popDue deadline = c.popDue deadline := popDue_advanceTo hpop
    cases h' with
    | done hpop' => exact ⟨c, .done (hsame ▸ hpop'), (advanceTo_advanceTo hle).symm⟩
    | next hpop' h' => exact ⟨c'', .next (hsame ▸ hpop') h', rfl⟩
  | next hpop _ ih =>
    obtain ⟨last, hlast, hend⟩ := ih h'
    exact ⟨last, .next (popDue_of_le hpop hle) hlast, hend⟩

end Drains

/-! ## 3. Advancing the clock -/

/-- An advance ends at its deadline. -/
theorem now_advance (c : VirtualClock) (elapsed : Duration) :
    (c.advance elapsed).2.now = c.now + elapsed := by
  obtain ⟨last, hdrains, hlast⟩ := c.drains_advance elapsed
  have hnow := hdrains.now_le (c.now.le_add elapsed)
  rw [Duration.le_iff] at hnow
  refine Duration.ext_nanos ?_
  rw [hlast, advanceTo, Duration.nanos_later]
  exact Nat.max_eq_right hnow

/-- Two advances in a row are one. -/
theorem advance_add (c : VirtualClock) (a b : Duration) :
    c.advance (a + b) = ((c.advance a).1 ++ ((c.advance a).2.advance b).1,
      ((c.advance a).2.advance b).2) := by
  obtain ⟨c₁, hfirst, heq₁⟩ := c.drains_advance a
  obtain ⟨c₂, hsecond, heq₂⟩ := (c.advance a).2.drains_advance b
  obtain ⟨last, hwhole, heq⟩ := c.drains_advance (a + b)
  rw [now_advance, Duration.add_add] at hsecond heq₂
  rw [heq₁] at hsecond
  have hle : c.now + a ≤ c.now + (a + b) := by
    rw [← Duration.add_add]
    exact Duration.le_add _ b
  obtain ⟨last', hcut, hend⟩ := hfirst.cut hle hsecond
  rw [← heq₁] at hcut
  obtain ⟨hids, rfl⟩ := hwhole.unique hcut
  exact Prod.ext hids (by rw [heq, heq₂, hend])

/-- The ids of the pending timers differ. -/
theorem Ordered.nodup_ids (h : c.Ordered) : (c.pending.map Timer.id).Nodup :=
  List.pairwise_map.mpr (h.increasing.imp fun hlt heq => by simp [heq] at hlt)

theorem Ordered.after (calls : List ClockCall)
    (hn : calls.countP ClockCall.starts < UInt64.size) : (VirtualClock.new.after calls).Ordered :=
  (Kept.new.history calls (by simpa [VirtualClock.new] using hn)).accounts.ordered

/-- **An advance fires exactly the timers that come due, in order.**

Let a new clock be used in any way, handing out fewer timers than there are ids, and then be
advanced.  One timer after the other is taken out until none is due any more, and then the clock
goes to the deadline.  What fires are the ids of the pending timers due by the deadline, each of
them once, sorted by due time without disturbing the order of the pending timers; so of two due at
the same time the one started first fires first.  The other timers stay pending in their old order,
and the clock stands at the deadline.  Two advances in a row fire the same timers in the same order
as one advance by the sum, and leave the same clock. -/
theorem advance_fires_due_timers (calls : List ClockCall)
    (hn : calls.countP ClockCall.starts < UInt64.size) (elapsed : Duration) :
    let c := VirtualClock.new.after calls
    let deadline := c.now + elapsed
    let due := c.pending.filter fun t => t.due ≤ deadline
    let fired := due.mergeSort fun t u => t.due ≤ u.due
    (∃ last, Drains deadline c (c.advance elapsed).1 last ∧
      (c.advance elapsed).2 = last.advanceTo deadline) ∧
    c.advance elapsed =
      (fired.map Timer.id,
        { c with now := deadline, pending := c.pending.filter fun t => ¬t.due ≤ deadline }) ∧
    (∀ id, id ∈ (c.advance elapsed).1 ↔ ∃ t ∈ c.pending, t.id = id ∧ t.due ≤ deadline) ∧
    (c.advance elapsed).1.Nodup ∧
    (fired.Pairwise fun t u => t.due < u.due ∨ t.due = u.due ∧ t.id.number < u.id.number) ∧
    ∀ a b, c.advance (a + b) =
      ((c.advance a).1 ++ ((c.advance a).2.advance b).1, ((c.advance a).2.advance b).2) := by
  intro c deadline due fired
  have hordered : c.Ordered := .after calls hn
  have hsorted : fired.Pairwise fun t u => t.firesBefore u = true :=
    Timer.pairwise_sorted (hordered.increasing.sublist List.filter_sublist)
  obtain ⟨last, hdrains, hlast⟩ := c.drains_advance elapsed
  obtain ⟨ts, hids, hperm, hpairwise, hrest⟩ := hdrains.fires hordered
  obtain rfl : ts = fired :=
    Timer.eq_of_perm_of_firesBefore (hperm.trans (List.mergeSort_perm _ _).symm) hpairwise hsorted
  have hmem : ∀ id, id ∈ (c.advance elapsed).1 ↔ ∃ t ∈ c.pending, t.id = id ∧ t.due ≤ deadline := by
    intro id
    simp only [hids, List.mem_map, hperm.mem_iff, List.mem_filter, decide_eq_true_eq]
    exact ⟨fun ⟨t, ⟨ht, hdue⟩, hid⟩ => ⟨t, ht, hid, hdue⟩,
      fun ⟨t, ht, hid, hdue⟩ => ⟨t, ⟨ht, hdue⟩, hid⟩⟩
  refine ⟨⟨last, hdrains, hlast⟩, Prod.ext hids ?_, hmem, ?_, ?_, c.advance_add⟩
  · have hnow : (last.advanceTo deadline).now = deadline := hlast ▸ c.now_advance elapsed
    calc (c.advance elapsed).2 = last.advanceTo deadline := hlast
      _ = { last with now := deadline } := congrArg (fun now => { last with now := now }) hnow
      _ = { c with now := deadline, pending := c.pending.filter fun t => ¬t.due ≤ deadline } := by
        rw [hrest]
  · rw [hids, (hperm.map Timer.id).nodup_iff]
    exact hordered.nodup_ids.sublist (List.filter_sublist.map Timer.id)
  · exact hsorted.imp fun h => Timer.firesBefore_iff_due.mp h

/-- Three timers are overdue, two of them due together, a fourth comes due at the deadline and a
fifth at the end of time. -/
theorem overdue_timers_fire_in_order :
    let calls : List ClockCall :=
      [.schedule ⟨30, by decide⟩, .schedule ⟨10, by decide⟩, .schedule ⟨10, by decide⟩,
        .advanceTo ⟨40, by decide⟩, .schedule ⟨50, by decide⟩, .schedule .longest]
    let c := VirtualClock.new.after calls
    let due := c.pending.filter fun t => t.due ≤ ⟨90, by decide⟩
    calls.countP ClockCall.starts < UInt64.size ∧
      c.advance ⟨50, by decide⟩ =
        ([⟨1⟩, ⟨2⟩, ⟨0⟩, ⟨3⟩], ⟨⟨90, by decide⟩, 5, [⟨.longest, ⟨4⟩⟩]⟩) ∧
      (due.mergeSort fun t u => t.due ≤ u.due).map Timer.id = [⟨1⟩, ⟨2⟩, ⟨0⟩, ⟨3⟩] ∧
      (c.advance ⟨20, by decide⟩).1 ++ ((c.advance ⟨20, by decide⟩).2.advance ⟨30, by decide⟩).1 =
        [⟨1⟩, ⟨2⟩, ⟨0⟩, ⟨3⟩] := by
  intro calls c due
  have hn : calls.countP ClockCall.starts < UInt64.size := by decide
  obtain ⟨-, hfired, -, -, -, hcut⟩ := advance_fires_due_timers calls hn ⟨50, by decide⟩
  have hadvance : c.advance ⟨50, by decide⟩ =
      ([⟨1⟩, ⟨2⟩, ⟨0⟩, ⟨3⟩], ⟨⟨90, by decide⟩, 5, [⟨.longest, ⟨4⟩⟩]⟩) := by decide
  refine ⟨hn, hadvance, ?_, ?_⟩
  · exact (congrArg Prod.fst (hfired.symm.trans hadvance) :)
  · have htwo := hcut ⟨20, by decide⟩ ⟨30, by decide⟩
    exact (congrArg Prod.fst (htwo.symm.trans hadvance) :)

end VirtualClock

end Downhill

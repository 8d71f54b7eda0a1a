import Downhill.Decimal

/-! # Durations

A duration is a whole number of nanoseconds, at most `2 ^ 64 - 1` seconds and 999999999
nanoseconds.  Clock readings are durations since the clock started.  Addition never fails: a sum
beyond the longest duration is the longest duration.
-/

namespace Downhill

/-- A span of time in nanoseconds, no longer than the longest one. -/
structure Duration where
  nanos : Nat
  bounded : nanos ≤ 18446744073709551615999999999 := by decide
deriving DecidableEq, Repr

namespace Duration

/-- No time at all. -/
def zero : Duration := ⟨0, Nat.zero_le _⟩

/-- The longest duration. -/
def longest : Duration := ⟨18446744073709551615999999999, Nat.le_refl _⟩

/-- A number of nanoseconds, or the longest duration if there are too many. -/
def ofNanos (n : Nat) : Duration := ⟨min n longest.nanos, Nat.min_le_right ..⟩

instance : LE Duration := ⟨fun d e => d.nanos ≤ e.nanos⟩

instance : LT Duration := ⟨fun d e => d.nanos < e.nanos⟩

instance (d e : Duration) : Decidable (d ≤ e) := inferInstanceAs (Decidable (d.nanos ≤ e.nanos))

instance (d e : Duration) : Decidable (d < e) := inferInstanceAs (Decidable (d.nanos < e.nanos))

/-- The sum, or the longest duration if the sum would be longer. -/
instance : Add Duration := ⟨fun d e => ofNanos (d.nanos + e.nanos)⟩

/-- The later of two clock readings. -/
def later (d e : Duration) : Duration := if d ≤ e then e else d

/-! ## 1. Order and sums in nanoseconds -/

theorem le_iff {d e : Duration} : d ≤ e ↔ d.nanos ≤ e.nanos := Iff.rfl

theorem lt_iff {d e : Duration} : d < e ↔ d.nanos < e.nanos := Iff.rfl

/-- Two durations with as many nanoseconds are the same. -/
theorem ext_nanos {d e : Duration} (h : d.nanos = e.nanos) : d = e := by
  cases d; cases e; cases h; rfl

theorem nanos_add (d e : Duration) : (d + e).nanos = min (d.nanos + e.nanos) longest.nanos := rfl

/-- No duration is longer than the longest one. -/
theorem le_longest (d : Duration) : d ≤ longest := d.bounded

theorem le_add (d e : Duration) : d ≤ d + e :=
  Nat.le_min.mpr ⟨Nat.le_add_right _ _, d.le_longest⟩

/-- The sum of three durations does not depend on which two are added first. -/
theorem add_add (d e e' : Duration) : d + e + e' = d + (e + e') := by
  refine ext_nanos ?_
  rw [nanos_add, nanos_add, nanos_add, nanos_add]
  omega

/-- The later reading is the larger one. -/
theorem nanos_later (d e : Duration) : (d.later e).nanos = max d.nanos e.nanos := by
  unfold later
  split <;> rename_i h <;> rw [le_iff] at h <;> omega

/-! ## 2. Text -/

/-- A count of units with up to `width` decimals of a fraction, zeros at its end dropped. -/
def unitText (whole fraction width : Nat) (unit : String) : String :=
  let decimals := Decimal.withoutTrailingZeros (Decimal.paddedDigits width fraction)
  let tail := if decimals.isEmpty then "" else "." ++ String.ofList decimals
  toString whole ++ tail ++ unit

/-- A duration in the largest of the units `s`, `ms`, `µs` and `ns` of which it holds at least
one. -/
def text (d : Duration) : String :=
  let n := d.nanos
  if 1000000000 ≤ n then unitText (n / 1000000000) (n % 1000000000) 9 "s"
  else if 1000000 ≤ n then unitText (n / 1000000) (n % 1000000) 6 "ms"
  else if 1000 ≤ n then unitText (n / 1000) (n % 1000) 3 "µs"
  else unitText n 0 0 "ns"

end Duration

end Downhill

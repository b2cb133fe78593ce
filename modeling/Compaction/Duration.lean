/-!
# Durations

Spans of time in whole nanoseconds, up to the longest that fits into a 64-bit count of seconds and
the nanoseconds of one more. Sums can leave that range, quotients and differences cannot.

A duration is written in the largest of seconds, milliseconds, microseconds and nanoseconds of
which it holds at least one, with its exact decimal fraction and no zeros at the end. Nothing is
rounded, so the text loses nothing.
-/

namespace Compaction

/-- The nanoseconds of the longest duration. -/
def Duration.limit : Nat := (UInt64.size - 1) * 1000000000 + 999999999

/-- A span of time. -/
structure Duration where
  nanos : Nat
  nanos_le : nanos ≤ Duration.limit
  deriving DecidableEq, Repr

/-- A sum of durations is longer than any duration. -/
structure DurationOverflow where
  deriving DecidableEq, Repr

/-- The overflow in words. -/
def DurationOverflow.message (_ : DurationOverflow) : String := "overflow when adding durations"

namespace Duration

/-- No time at all. -/
def zero : Duration := ⟨0, Nat.zero_le _⟩

instance : Inhabited Duration := ⟨zero⟩

instance : LT Duration := ⟨fun a b => a.nanos < b.nanos⟩

instance (a b : Duration) : Decidable (a < b) := inferInstanceAs (Decidable (a.nanos < b.nanos))

/-- The duration of so many nanoseconds. -/
def ofNanos? (nanos : Nat) : Option Duration :=
  if h : nanos ≤ limit then some ⟨nanos, h⟩ else none

/-- The duration of so many seconds and nanoseconds. -/
def ofSeconds? (seconds nanos : Nat) : Option Duration := ofNanos? (seconds * 1000000000 + nanos)

/-- The sum of two durations. -/
def add (a b : Duration) : Except DurationOverflow Duration :=
  match ofNanos? (a.nanos + b.nanos) with
  | some sum => .ok sum
  | none => .error {}

/-- The time from `b` to `a`, none where `a` comes first. -/
def sub (a b : Duration) : Duration :=
  ⟨a.nanos - b.nanos, Nat.le_trans (Nat.sub_le _ _) a.nanos_le⟩

/-- The part of a duration that falls to each of `count`, rounded down to a nanosecond. -/
def div (a : Duration) (count : Nat) : Duration :=
  ⟨a.nanos / count, Nat.le_trans (Nat.div_le_self _ _) a.nanos_le⟩

theorem add_eq_ok_iff {a b sum : Duration} : a.add b = .ok sum ↔ sum.nanos = a.nanos + b.nanos := by
  unfold add ofNanos?
  by_cases h : a.nanos + b.nanos ≤ limit
  · rw [dif_pos h]
    constructor
    · rintro ⟨⟩
      rfl
    · intro hs
      cases sum
      cases hs
      rfl
  · rw [dif_neg h]
    constructor
    · rintro ⟨⟩
    · intro hs
      exact absurd (hs ▸ sum.nanos_le) h

theorem add_eq_error_iff {a b : Duration} : a.add b = .error {} ↔ limit < a.nanos + b.nanos := by
  unfold add ofNanos?
  by_cases h : a.nanos + b.nanos ≤ limit
  · simp [h]
  · simp [h, Nat.lt_of_not_le h]

/-! ## The text of a duration -/

/-- A unit of time, and what is written behind a number of them. -/
structure Scale where
  /-- The nanoseconds in one unit: a one and zeros. -/
  unit : Nat
  /-- The number of those zeros, which is how many places a fraction of the unit can need. -/
  places : Nat
  symbol : String
  deriving DecidableEq, Repr

/-- The largest unit of which there is at least one, nanoseconds where there is none. -/
def scale (duration : Duration) : Scale :=
  if 1000000000 ≤ duration.nanos then ⟨1000000000, 9, "s"⟩
  else if 1000000 ≤ duration.nanos then ⟨1000000, 6, "ms"⟩
  else if 1000 ≤ duration.nanos then ⟨1000, 3, "µs"⟩
  else ⟨1, 0, "ns"⟩

/--
The decimal places of the fraction `rest / unit`, found by long division, `places` of them at most.
They stop where nothing is left over, so the last of them is not a zero.
-/
def fractionDigits (unit : Nat) : (places rest : Nat) → List Char
  | 0, _ => []
  | _ + 1, 0 => []
  | places + 1, rest =>
    Nat.digitChar (rest * 10 / unit) :: fractionDigits unit places (rest * 10 % unit)

/-- A fraction behind its point, nothing where there is no fraction. -/
def fractionText (scale : Scale) (rest : Nat) : String :=
  if rest = 0 then "" else "." ++ String.ofList (fractionDigits scale.unit scale.places rest)

/-- The duration as it is written. -/
def text (duration : Duration) : String :=
  let scale := duration.scale
  toString (duration.nanos / scale.unit) ++
    fractionText scale (duration.nanos % scale.unit) ++ scale.symbol

end Duration

end Compaction

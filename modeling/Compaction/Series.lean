import Compaction.Duration
import Compaction.Report

/-!
# Series of passes

The running account of timed passes at one block size: how many there were, how long they took
together, which was the fastest and which the slowest, and how many bytes they moved and freed. A
series holds at least one pass, so an average and both extremes always exist. Of passes that took
equally long the earliest counts as the extreme.

Only the total time has a bound. Whether the other numbers would fit into machine words is a
question of its own, `Series.InWords`.
-/

namespace Compaction

/-- A timed pass, numbered from one in the order the passes were recorded. -/
structure Lap where
  index : Nat
  elapsed : Duration
  deriving DecidableEq, Repr

/-- The lap as it is written: its time and its number. -/
def Lap.text (lap : Lap) : String := s!"{lap.elapsed.text}@{lap.index}"

/-- What is known of one or more passes at one block size. -/
structure Series where
  passes : Nat
  total : Duration
  fastest : Lap
  slowest : Lap
  movedBytes : Nat
  freedBytes : Nat
  deriving DecidableEq, Repr

namespace Series

/-- The series of a single pass. -/
def single (report : Report) (elapsed : Duration) : Series :=
  { passes := 1
    total := elapsed
    fastest := ⟨1, elapsed⟩
    slowest := ⟨1, elapsed⟩
    movedBytes := report.movedBytes
    freedBytes := report.freedBytes }

/-- The series with one more pass, unless the total time leaves the range of durations. -/
def record (series : Series) (report : Report) (elapsed : Duration) :
    Except DurationOverflow Series :=
  let lap : Lap := ⟨series.passes + 1, elapsed⟩
  match series.total.add elapsed with
  | .error overflow => .error overflow
  | .ok total =>
    .ok
      { passes := series.passes + 1
        total
        fastest := if elapsed < series.fastest.elapsed then lap else series.fastest
        slowest := if series.slowest.elapsed < elapsed then lap else series.slowest
        movedBytes := series.movedBytes + report.movedBytes
        freedBytes := series.freedBytes + report.freedBytes }

/-- The time a pass took on average, rounded down to a nanosecond. -/
def average (series : Series) : Duration := series.total.div series.passes

end Series

end Compaction

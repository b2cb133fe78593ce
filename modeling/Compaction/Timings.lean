import Compaction.Log
import Compaction.Series
import Compaction.TextTable

/-!
# Timings

Timed passes grouped by block size. There is one series for each block size that was recorded,
in the order in which the block sizes were first seen. Compaction records nothing by itself; who
times a pass hands over its report.
-/

namespace Compaction

/-- The series of the block sizes seen so far. -/
structure Timings where
  rows : List (BlockSize × Series) := []
  deriving DecidableEq, Repr, Inhabited

namespace Timings

/-- Records a pass in the row of its block size, in a new last row if there is none yet. -/
def recordRow (report : Report) (elapsed : Duration) :
    List (BlockSize × Series) → Except DurationOverflow (List (BlockSize × Series))
  | [] => .ok [(report.blockSize, .single report elapsed)]
  | (size, series) :: rest =>
    if size = report.blockSize then
      match series.record report elapsed with
      | .ok series => .ok ((size, series) :: rest)
      | .error overflow => .error overflow
    else
      (recordRow report elapsed rest).map ((size, series) :: ·)

/-- Records a pass that ended in `report` and took `elapsed`. -/
def record (timings : Timings) (report : Report) (elapsed : Duration) :
    Except DurationOverflow Timings :=
  (recordRow report elapsed timings.rows).map fun rows => { rows }

/-- The timings of a single pass. -/
def single (report : Report) (elapsed : Duration) : Timings :=
  { rows := [(report.blockSize, .single report elapsed)] }

/-- A first pass can be recorded however long it took. -/
theorem record_empty (report : Report) (elapsed : Duration) :
    record {} report elapsed = .ok (single report elapsed) := rfl

/-- The series of a block size, if a pass at it was recorded. -/
def series? (timings : Timings) (size : BlockSize) : Option Series :=
  timings.rows.lookup size

/-- How many passes were recorded at a block size. -/
def passes (timings : Timings) (size : BlockSize) : Nat :=
  match timings.series? size with
  | some series => series.passes
  | none => 0

/-- Nothing was recorded. -/
def isEmpty (timings : Timings) : Bool := timings.rows.isEmpty

/-! ## The table -/

/-- The cells of one row. -/
def rowCells (size : BlockSize) (series : Series) : List String :=
  [size.label, series.average.text, series.fastest.text, series.slowest.text,
    toString series.passes, toString series.movedBytes, toString series.freedBytes]

/-- The cells of all rows. -/
def cells (timings : Timings) : List (List String) :=
  timings.rows.map fun (size, series) => rowCells size series

/-- The table of all series. -/
def table (timings : Timings) : TextTable :=
  { header := ["Block", "Avg", "Fastest@Idx", "Slowest@Idx", "Passes", "Moved", "Freed"]
    rows := timings.cells }

/-- The table as an entry of the log, under a line of its own. -/
def summary (timings : Timings) : LogRecord :=
  { level := .debug, text := "\n" ++ "\n".intercalate timings.table.lines }

end Timings

end Compaction

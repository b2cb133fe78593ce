import Compaction.Log
import Compaction.Report

/-!
# The journal of a pass

A pass notes every block it moves, in the order it moves them, and closes with its report. Read
against the slots as they were before the pass, the moves say where each reference went.
-/

namespace Compaction

/-- A block taken from one offset to another. -/
structure Move where
  source : Nat
  target : Nat
  deriving DecidableEq, Repr

/-- What a pass notes down. -/
inductive Event where
  /-- A live block was moved. -/
  | moved (move : Move)
  /-- The pass over a buffer of `length` bytes is done. -/
  | finished (length : Nat) (report : Report)
  deriving DecidableEq, Repr

/-- The event as an entry of the log: moves are for tracing, the end of a pass is not. -/
def Event.entry : Event → LogRecord
  | moved move =>
    { level := .trace, text := s!"moved block {move.source} -> {move.target}" }
  | finished length report =>
    { level := .debug
      text :=
        s!"compacted {length} bytes ({report.blockSize.label} blocks): " ++
          s!"{report.liveBlocks} live, {report.movedBlocks} moved, " ++
          s!"{report.freedBytes} bytes freed" }

end Compaction

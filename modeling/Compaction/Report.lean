import Compaction.BlockSize

/-!
# Reports

What a successful pass did, in numbers.
-/

namespace Compaction

/-- The account of one pass. A pass over an empty buffer has nothing but its block size. -/
structure Report where
  blockSize : BlockSize := default
  /-- Live blocks, each counted once however many slots designate it. -/
  liveBlocks : Nat := 0
  /-- Live blocks that ended at another offset than they started at. -/
  movedBlocks : Nat := 0
  /-- Bytes taken up by the packed blocks. -/
  liveBytes : Nat := 0
  /-- Zeroed bytes behind the packed blocks. -/
  freedBytes : Nat := 0
  deriving DecidableEq, Repr, Inhabited

namespace Report

/-- Every live block was already in place. -/
def isNoop (report : Report) : Bool := report.movedBlocks == 0

/-- The report with a name for each number. -/
def text (report : Report) : String :=
  "CompactionReport \x7b " ++
    s!"block_size: {report.blockSize.name}, live_blocks: {report.liveBlocks}, " ++
    s!"moved_blocks: {report.movedBlocks}, live_bytes: {report.liveBytes}, " ++
    s!"freed_bytes: {report.freedBytes}" ++ " \x7d"

/-- Bytes copied by the pass. -/
def movedBytes (report : Report) : Nat := report.movedBlocks * report.blockSize.bytes

end Report

end Compaction

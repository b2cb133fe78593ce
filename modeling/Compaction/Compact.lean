import Compaction.Relocation
import Compaction.Validation

/-!
# Compaction

Packs the blocks that slots refer to at the front of the buffer, without gaps and in their order,
zeroes the rest and makes every slot follow its block. Nothing is written before all checks have
passed, so a request that is turned down leaves the memory as it was.
-/

namespace Compaction

/-- What comes out of a request to compact. -/
structure Outcome where
  result : Except Fault Report
  /-- The memory afterwards; with a fault, the memory as it was. -/
  memory : Memory
  /-- What the pass noted down. -/
  journal : List Event := []

namespace Outcome

/-- The request was turned down. -/
def rejected (memory : Memory) (fault : Fault) : Outcome :=
  { result := .error fault, memory }

/-- There was nothing to do. -/
def untouched (memory : Memory) (size : BlockSize) : Outcome :=
  { result := .ok { blockSize := size }, memory }

end Outcome

namespace Memory

/-- Packs the blocks of a validated index, clears what is behind them and gives an account of it. -/
def pack (size : BlockSize) (live : LiveIndex) (memory : Memory) : Outcome :=
  let relocation := Relocation.run size live memory
  let report : Report :=
    { blockSize := size
      liveBlocks := live.size
      movedBlocks := relocation.moves.size
      liveBytes := relocation.packed
      freedBytes := memory.buffer.size - relocation.packed }
  { result := .ok report
    memory := relocation.memory.clearFrom relocation.packed
    journal := relocation.moves.toList.map .moved ++ [.finished memory.buffer.size report] }

/--
Compacts a memory of blocks of the given size. An empty buffer has no blocks: it is left alone,
whatever its slots hold.
-/
def compact (size : BlockSize) (memory : Memory) : Outcome :=
  if memory.buffer.isEmpty then
    .untouched memory size
  else
    match size.checkLength memory.buffer.size with
    | .error fault => .rejected memory fault
    | .ok () =>
      match memory.resolveSlots size with
      | .error fault => .rejected memory fault
      | .ok offsets => memory.pack size (.ofOffsets offsets)

/--
Compacts a memory of blocks of `width` bytes. An empty buffer is left alone before the width is
looked at, and accounted for as one of single bytes.
-/
def compactWidth (width : Nat) (memory : Memory) : Outcome :=
  if memory.buffer.isEmpty then
    .untouched memory default
  else
    match BlockSize.ofWidth width with
    | .error fault => .rejected memory fault
    | .ok size => memory.compact size

/--
The block a reference designates, under the checks a compaction makes. A fault of the reference
is one of slot 0.
-/
def block (size : BlockSize) (memory : Memory) (reference : Reference) :
    Except Fault (List UInt8) := do
  size.checkLength memory.buffer.size
  let offset ← Buffer.resolve size memory.buffer 0 reference
  return memory.buffer.slice offset size.bytes

end Memory

end Compaction

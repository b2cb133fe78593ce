import Compaction.Journal
import Compaction.LiveIndex
import Compaction.Memory

/-!
# Relocation

The part of a compaction that writes. Live blocks are placed one after the other, in ascending
order of their offsets, at the end of the blocks already packed. That end never lies past the start
of the block being placed, and both lie on block boundaries, so a block either stays where it is
or is copied to bytes that end before it starts: none is overwritten before its turn has come.
-/

namespace Compaction

/-- A relocation on its way through the live blocks. -/
structure Relocation where
  memory : Memory
  /-- The end of the packed blocks, where the next one goes. -/
  packed : Nat := 0
  /-- The blocks that had to move, first to last. -/
  moves : Array Move := #[]

namespace Relocation

/-- Packs the block at `source` and makes the slots that designate it follow. -/
def place (size : BlockSize) (relocation : Relocation) (source : Nat) (holders : List Nat) :
    Relocation :=
  let target := relocation.packed
  let memory := relocation.memory.retarget target holders
  if target = source then
    { relocation with memory, packed := target + size.bytes }
  else
    { memory := memory.copyBlock size.bytes source target
      packed := target + size.bytes
      moves := relocation.moves.push ⟨source, target⟩ }

@[simp] theorem packed_place (size : BlockSize) (relocation : Relocation) (source : Nat)
    (holders : List Nat) :
    (relocation.place size source holders).packed = relocation.packed + size.bytes := by
  unfold place
  by_cases h : relocation.packed = source <;> simp [h]

/-- Packs all the live blocks of a memory. -/
def run (size : BlockSize) (live : LiveIndex) (memory : Memory) : Relocation :=
  live.toList.foldl
    (fun relocation (source, holders) => relocation.place size source holders.toList) { memory }

end Relocation

end Compaction

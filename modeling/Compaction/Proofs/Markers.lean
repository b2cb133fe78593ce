import Compaction.Proofs.FixedPoint
import Compaction.Proofs.Reading

/-!
# What is marked is what is referred to

There are two ways to tell a live block: a slot designates it, or its first byte is not zero. Before
a pass they have little to do with each other, because bytes that nothing refers to may hold
anything. After a pass they are the same. The packed blocks keep the markers they were checked for,
and every byte behind them is zero; the slots designate each of the packed blocks, and no other
place (`Slots.Packed`).

So the blocks in front of one place can be read and those behind it are free, whichever way one
looks.
-/

namespace Compaction

/-- A block is one of the first `count` when it starts in front of their end. -/
theorem BlockSize.Aligned.exists_index_iff {size : BlockSize} {offset count : Nat}
    (h : size.Aligned offset) :
    (∃ index < count, offset = index * size.bytes) ↔ offset < count * size.bytes := by
  refine ⟨fun hindex => ?_, fun hlt => ?_⟩
  · obtain ⟨index, hlt, rfl⟩ := hindex
    exact Nat.mul_lt_mul_of_pos_right hlt size.bytes_pos
  · obtain ⟨index, rfl⟩ := h
    rw [Nat.mul_comm size.bytes index] at hlt ⊢
    exact ⟨index, Nat.lt_of_mul_lt_mul_right hlt, rfl⟩

namespace Memory

variable {size : BlockSize} {memory : Memory} {offset : Nat}

/-- The slots designate the blocks in front of the end of the packed ones. -/
theorem Valid.mem_slots_gathered_iff (h : memory.Valid size) (ha : size.Aligned offset) :
    some offset ∈ (memory.gathered size).slots ↔
      offset < memory.slots.live.length * size.bytes :=
  (h.packed_gathered offset).trans ha.exists_index_iff

/-- The blocks behind the packed ones are marked as free. -/
theorem Valid.free_gathered (h : memory.Valid size) (ha : size.Aligned offset)
    (hinside : offset + size.bytes ≤ memory.buffer.size)
    (hbehind : memory.slots.live.length * size.bytes ≤ offset) :
    (memory.gathered size).buffer.ReferenceFault size 0 (some offset) (.freeBlock 0 offset) := by
  have hpos := size.bytes_pos
  refine .free ?_ ha ?_
  · rw [h.size_gathered]
    exact hinside
  · exact h.getElem?_buffer_gathered hbehind (by omega)

theorem Valid.block_gathered_of_le (h : memory.Valid size) (ha : size.Aligned offset)
    (hinside : offset + size.bytes ≤ memory.buffer.size)
    (hbehind : memory.slots.live.length * size.bytes ≤ offset) :
    (memory.gathered size).block size (some offset) = .error (.freeBlock 0 offset) := by
  have hlength := BlockSize.checkLength_eq_ok_iff.mpr ⟨h.gathered.fits, h.gathered.even⟩
  exact (block_eq_error_iff hlength).mpr (h.free_gathered ha hinside hbehind)

/-- **The blocks that can be read are the packed ones.** -/
theorem Valid.exists_block_gathered_iff (h : memory.Valid size) (ha : size.Aligned offset)
    (hinside : offset + size.bytes ≤ memory.buffer.size) :
    (∃ bytes, (memory.gathered size).block size (some offset) = .ok bytes) ↔
      offset < memory.slots.live.length * size.bytes := by
  refine ⟨fun hread => ?_, fun hfront => ?_⟩
  · obtain ⟨bytes, hbytes⟩ := hread
    by_contra hbehind
    rw [h.block_gathered_of_le ha hinside (Nat.le_of_not_lt hbehind)] at hbytes
    cases hbytes
  · -- a slot designates the block, and the pass has left only references to live blocks
    have hmem : some offset ∈ (memory.gathered size).slots :=
      (h.mem_slots_gathered_iff ha).mpr hfront
    exact ⟨_, h.gathered.block_eq hmem⟩

end Memory

/--
**After a pass the markers and the references agree on what is live.**

Suppose a pass over a buffer that is not empty succeeds, and take any place in the buffer where a
block may lie. The block there can be read if and only if it starts in front of the end of the live
bytes, and if and only if some slot now refers to it. Otherwise reading it meets a free block.
-/
theorem compact_markers_agree {size : BlockSize} {memory : Memory} {report : Report}
    (hne : memory.buffer.size ≠ 0) (h : (memory.compact size).result = .ok report) {offset : Nat}
    (haligned : size.Aligned offset) (hinside : offset + size.bytes ≤ memory.buffer.size) :
    ((∃ bytes, (memory.compact size).memory.block size (some offset) = .ok bytes) ↔
        offset < report.liveBytes) ∧
      (offset < report.liveBytes ↔ some offset ∈ (memory.compact size).memory.slots) ∧
      (report.liveBytes ≤ offset →
        (memory.compact size).memory.block size (some offset) = .error (.freeBlock 0 offset)) := by
  obtain ⟨hvalid, rfl, hafter⟩ := Memory.compact_of_ok hne h
  rw [hafter]
  refine ⟨?_, ?_, ?_⟩
  · exact hvalid.exists_block_gathered_iff haligned hinside
  · exact (hvalid.mem_slots_gathered_iff haligned).symm
  · exact hvalid.block_gathered_of_le haligned hinside

/-- Every block is marked, but slots designate only the third and the second. -/
def Memory.overgrown : Memory where
  buffer := #[6, 6, 7, 8, 5, 0, 9, 9]
  slots := #[some 4, some 2, some 4]

theorem compact_markers_agree_overgrown :
    some 2 ∈ (Memory.overgrown.compact .two).memory.slots ∧
      some 4 ∉ (Memory.overgrown.compact .two).memory.slots ∧
      (Memory.overgrown.compact .two).memory.block .two (some 4) = .error (.freeBlock 0 4) := by
  have hresult : (Memory.overgrown.compact .two).result =
      .ok { blockSize := .two, liveBlocks := 2, movedBlocks := 2, liveBytes := 4,
            freedBytes := 4 } := rfl
  have hsecond : BlockSize.two.Aligned 2 := by decide
  have hthird : BlockSize.two.Aligned 4 := by decide
  obtain ⟨-, hlive, -⟩ := compact_markers_agree (by decide) hresult hsecond (by decide)
  obtain ⟨-, hgone, hfree⟩ := compact_markers_agree (by decide) hresult hthird (by decide)
  exact ⟨hlive.mp (by decide), fun hmem => absurd (hgone.mpr hmem) (by decide), hfree (by decide)⟩

end Compaction

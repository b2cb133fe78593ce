import Compaction.Proofs.InPlace
import Compaction.Proofs.Rejection

/-!
# Reading a block and compacting make the same checks

A block can be read through any reference, whether a slot holds it or not. `Memory.block` checks the
length of the buffer and then that one reference, as one of slot 0; a pass checks the length and
then its slots one after the other. So a pass succeeds when each of its references could be read,
and what it is turned down for is what reading the first bad one is turned down for, but for the
slot.

A slot on its own is a memory with one live block, and a pass over it leaves what reading returns at
the front of the buffer.
-/

namespace Compaction

/-- The same fault of another slot. A fault that concerns no slot stays what it is. -/
def Fault.withSlot (slot : Nat) : Fault → Fault
  | unsupportedWidth width => unsupportedWidth width
  | bufferTooShort width length => bufferTooShort width length
  | unevenBuffer length width => unevenBuffer length width
  | nullReference _ => nullReference slot
  | outOfBounds _ offset length => outOfBounds slot offset length
  | unaligned _ offset width => unaligned slot offset width
  | freeBlock _ offset => freeBlock slot offset

namespace Buffer.ReferenceFault

variable {size : BlockSize} {buffer : Buffer} {slot : Nat} {reference : Reference} {fault : Fault}

theorem slot?_eq (h : buffer.ReferenceFault size slot reference fault) :
    fault.slot? = some slot := by
  cases h <;> rfl

/-- What is wrong with a reference does not depend on the slot that holds it. -/
theorem withSlot (h : buffer.ReferenceFault size slot reference fault) (other : Nat) :
    buffer.ReferenceFault size other reference (fault.withSlot other) := by
  cases h with
  | null => exact .null
  | outside hbeyond => exact .outside hbeyond
  | unaligned hinside hbetween => exact .unaligned hinside hbetween
  | free hinside hboundary hmarker => exact .free hinside hboundary hmarker

end Buffer.ReferenceFault

namespace Memory

variable {size : BlockSize} {memory : Memory} {reference : Reference}

/-! ## Reading through every slot -/

theorem block_eq_error_iff (h : size.checkLength memory.buffer.size = .ok ()) {fault : Fault} :
    memory.block size reference = .error fault ↔
      memory.buffer.ReferenceFault size 0 reference fault := by
  rw [block_of_checkLength_ok h, ← Buffer.resolve_eq_error_iff]
  cases Buffer.resolve size memory.buffer 0 reference <;> simp [Except.map]

/-- A pass goes through with a memory all of whose references can be read. -/
theorem valid_iff_block :
    memory.Valid size ↔
      size.checkLength memory.buffer.size = .ok () ∧
        ∀ reference ∈ memory.slots, ∃ bytes, memory.block size reference = .ok bytes := by
  refine ⟨fun h => ?_, fun h => ?_⟩
  · have hlength := BlockSize.checkLength_eq_ok_iff.mpr ⟨h.fits, h.even⟩
    refine ⟨hlength, fun reference hr => ?_⟩
    obtain ⟨offset, heq, hblock⟩ := h.sound reference hr
    exact ⟨_, block_eq_ok_iff.mpr ⟨hlength, offset, heq, hblock, rfl⟩⟩
  · -- a reference that can be read designates a live block
    obtain ⟨hlength, hread⟩ := h
    obtain ⟨hfits, heven⟩ := BlockSize.checkLength_eq_ok_iff.mp hlength
    refine ⟨hfits, heven, fun reference hr => ?_⟩
    obtain ⟨bytes, hbytes⟩ := hread reference hr
    obtain ⟨-, offset, heq, hblock, -⟩ := block_eq_ok_iff.mp hbytes
    exact ⟨offset, heq, hblock⟩

/-- A pass is turned down for what the first reference that cannot be read is turned down for. -/
theorem exists_block_eq_error (hne : memory.buffer.size ≠ 0)
    (hlength : size.checkLength memory.buffer.size = .ok ()) {fault : Fault}
    (h : (memory.compact size).result = .error fault) :
    ∃ slot reference, memory.slots[slot]? = some reference ∧ fault.slot? = some slot ∧
      memory.block size reference = .error (fault.withSlot 0) ∧
      ∀ earlier < slot, ∃ reference bytes, memory.slots[earlier]? = some reference ∧
        memory.block size reference = .ok bytes := by
  rcases (compact_eq_error_iff hne).mp h with hshort | ⟨-, -, hslots⟩
  · rw [hlength] at hshort
    cases hshort
  · obtain ⟨slot, reference, hheld, hbad, hfirst⟩ := resolveSlots_eq_error_iff.mp hslots
    refine ⟨slot, reference, hheld, hbad.slot?_eq, ?_, fun earlier hlt => ?_⟩
    · exact (block_eq_error_iff hlength).mpr (hbad.withSlot 0)
    · obtain ⟨offset, hoffset, hblock⟩ := hfirst earlier hlt
      exact ⟨some offset, _, hoffset, block_eq_ok_iff.mpr ⟨hlength, offset, rfl, hblock, rfl⟩⟩

/-! ## One slot on its own -/

theorem valid_singleton_iff :
    Valid size { memory with slots := #[reference] } ↔
      ∃ bytes, memory.block size reference = .ok bytes := by
  rw [valid_iff_block]
  refine ⟨fun h => h.2 reference (by simp), fun h => ?_⟩
  obtain ⟨bytes, hbytes⟩ := h
  refine ⟨(block_eq_ok_iff.mp hbytes).1, fun other hother => ?_⟩
  obtain rfl : other = reference := by simpa using hother
  exact ⟨bytes, hbytes⟩

/-- **What reading returns is what a pass over the slot alone packs.** -/
theorem toList_buffer_compact_singleton {bytes : List UInt8}
    (h : memory.block size reference = .ok bytes) :
    (Memory.compact size { memory with slots := #[reference] }).memory.buffer.toList =
      bytes ++ List.replicate (memory.buffer.size - size.bytes) 0 := by
  have hvalid : Valid size { memory with slots := #[reference] } :=
    valid_singleton_iff.mpr ⟨bytes, h⟩
  obtain ⟨-, offset, rfl, -, rfl⟩ := block_eq_ok_iff.mp h
  rw [compact_of_valid_eq hvalid]
  simp only [gathered, Slots.live_singleton, Buffer.blocks_cons, Buffer.blocks_nil, List.append_nil,
    List.length_singleton, Nat.one_mul]

end Memory

/--
**Reading a block and compacting make the same checks.**

Let the buffer not be empty. If its length is turned down, a pass and every attempt to read are
turned down for that. Otherwise a pass succeeds if and only if the reference in each slot can be
read; and if it is turned down, then for a fault of some slot such that the references before that
slot can be read, and the one it holds cannot, for the same fault but of slot 0.

A slot on its own can be read if and only if a pass over it succeeds, and the pass then leaves the
bytes that are read, with zeros behind them.
-/
theorem block_agrees_compact {size : BlockSize} {memory : Memory}
    (hne : memory.buffer.size ≠ 0) :
    (∀ fault, size.checkLength memory.buffer.size = .error fault →
        (memory.compact size).result = .error fault ∧
        ∀ reference, memory.block size reference = .error fault) ∧
      (size.checkLength memory.buffer.size = .ok () →
        ((∃ report, (memory.compact size).result = .ok report) ↔
          ∀ reference ∈ memory.slots, ∃ bytes, memory.block size reference = .ok bytes) ∧
        ∀ fault, (memory.compact size).result = .error fault →
          ∃ slot reference, memory.slots[slot]? = some reference ∧ fault.slot? = some slot ∧
            memory.block size reference = .error (fault.withSlot 0) ∧
            ∀ earlier < slot, ∃ reference bytes, memory.slots[earlier]? = some reference ∧
              memory.block size reference = .ok bytes) ∧
      ∀ reference,
        ((∃ bytes, memory.block size reference = .ok bytes) ↔
          ∃ report,
            (Memory.compact size { memory with slots := #[reference] }).result = .ok report) ∧
        ∀ bytes, memory.block size reference = .ok bytes →
          bytes.length = size.bytes ∧
          (Memory.compact size { memory with slots := #[reference] }).memory.buffer.toList =
            bytes ++ List.replicate (memory.buffer.size - size.bytes) 0 := by
  refine ⟨fun fault hshort => ⟨?_, ?_⟩, fun hlength => ⟨?_, fun fault h => ?_⟩,
    fun reference => ⟨?_, fun bytes h => ⟨?_, ?_⟩⟩⟩
  · exact (Memory.compact_eq_error_iff hne).mpr (.inl hshort)
  · exact Memory.block_of_checkLength_error hshort
  · rw [Memory.exists_ok_iff_valid hne, Memory.valid_iff_block]
    exact ⟨fun h => h.2, fun hread => ⟨hlength, hread⟩⟩
  · exact Memory.exists_block_eq_error hne hlength h
  · have hne' : ({ memory with slots := #[reference] } : Memory).buffer.size ≠ 0 := hne
    rw [Memory.exists_ok_iff_valid hne', Memory.valid_singleton_iff]
  · obtain ⟨-, offset, -, hblock, rfl⟩ := Memory.block_eq_ok_iff.mp h
    exact Buffer.length_slice hblock.inside
  · exact Memory.toList_buffer_compact_singleton h

/-- Slot 1 lies between two blocks and slot 2 is null. -/
def Memory.askew : Memory where
  buffer := #[5, 0, 6, 1, 0, 0]
  slots := #[some 2, some 3, none]

theorem block_agrees_compact_askew :
    (Memory.askew.compact .two).result = .error (.unaligned 1 3 2) ∧
      Memory.askew.block .two (some 3) = .error (.unaligned 0 3 2) ∧
      (∃ report, (Memory.compact .two { Memory.askew with slots := #[some 2] }).result =
        .ok report) ∧
      (Memory.compact .two { Memory.askew with slots := #[some 2] }).memory.buffer.toList =
        [6, 1] ++ List.replicate 4 0 := by
  have hresult : (Memory.askew.compact .two).result = .error (.unaligned 1 3 2) := rfl
  have hread : Memory.askew.block .two (some 2) = .ok [6, 1] := rfl
  obtain ⟨-, hslots, hsingle⟩ := @block_agrees_compact .two Memory.askew (by decide)
  obtain ⟨slot, reference, hheld, hslot, hfault, -⟩ := (hslots rfl).2 _ hresult
  obtain rfl : 1 = slot := Option.some.inj hslot
  obtain rfl : some 3 = reference := Option.some.inj hheld
  obtain ⟨hiff, hbuffer⟩ := hsingle (some 2)
  exact ⟨hresult, hfault, hiff.mp ⟨_, hread⟩, (hbuffer _ hread).2⟩

end Compaction

import Compaction.BlockSize
import Compaction.Fault
import Compaction.Memory

/-!
# Validation

The checks that come before a pass, in their fixed order: the width, the length of the buffer,
then slot after slot. Of one slot the checks are for null, for the bounds, for the alignment and
last for the marker byte, so that the marker is read only inside the buffer.

The result of a successful validation is the offset each slot designates.
-/

namespace Compaction

namespace BlockSize

/-- The block size of `width` bytes. -/
def ofWidth (width : Nat) : Except Fault BlockSize :=
  match ofBytes? width with
  | some size => .ok size
  | none => .error (.unsupportedWidth width)

/-- Checks that `length` bytes are one block or more, with nothing left over. -/
def checkLength (size : BlockSize) (length : Nat) : Except Fault Unit :=
  if length < size.bytes then
    .error (.bufferTooShort size.bytes length)
  else if size.Aligned length then
    .ok ()
  else
    .error (.unevenBuffer length size.bytes)

theorem ofWidth_eq_ok_iff {width : Nat} {size : BlockSize} :
    ofWidth width = .ok size ↔ size.bytes = width := by
  rw [← ofBytes?_eq_some_iff, ofWidth]
  cases ofBytes? width <;> simp

theorem checkLength_eq_ok_iff {size : BlockSize} {length : Nat} :
    size.checkLength length = .ok () ↔ size.bytes ≤ length ∧ size.Aligned length := by
  unfold checkLength
  by_cases hl : length < size.bytes
  · simp [hl, Nat.not_le_of_lt hl]
  · by_cases ha : size.Aligned length <;> simp [hl, ha, Nat.le_of_not_lt hl]

end BlockSize

/--
The offset of the live block that `reference`, held in `slot`, designates. The bound is on the
last offset at which a block still fits, so no sum of an offset and a width is ever formed.
-/
def Buffer.resolve (size : BlockSize) (buffer : Buffer) (slot : Nat) (reference : Reference) :
    Except Fault Nat :=
  match reference with
  | none => .error (.nullReference slot)
  | some offset =>
    if buffer.size < size.bytes ∨ buffer.size - size.bytes < offset then
      .error (.outOfBounds slot offset buffer.size)
    else if ¬size.Aligned offset then
      .error (.unaligned slot offset size.bytes)
    else if buffer[offset]? = some 0 then
      .error (.freeBlock slot offset)
    else
      .ok offset

/-- A reference designates an offset when a whole block lies there, on a boundary and marked. -/
theorem Buffer.resolve_eq_ok_iff {size : BlockSize} {buffer : Buffer} {slot offset : Nat}
    {reference : Reference} :
    Buffer.resolve size buffer slot reference = .ok offset ↔
      reference = some offset ∧ offset + size.bytes ≤ buffer.size ∧ size.Aligned offset ∧
        buffer[offset]? ≠ some 0 := by
  have hpos := size.bytes_pos
  cases reference with
  | none => simp [Buffer.resolve]
  | some held =>
      by_cases hb : buffer.size < size.bytes ∨ buffer.size - size.bytes < held
      · simp only [Buffer.resolve, if_pos hb, reduceCtorEq, Option.some.injEq, false_iff]
        rintro ⟨rfl, hle, -⟩
        omega
      · have hle : held + size.bytes ≤ buffer.size := by omega
        simp only [Buffer.resolve, if_neg hb, Option.some.injEq]
        by_cases ha : size.Aligned held
        · by_cases hm : buffer[held]? = some 0
          · simp only [not_true_eq_false, ha, hm, ite_true, ite_false, reduceCtorEq, false_iff]
            rintro ⟨rfl, -, -, hne⟩
            exact hne hm
          · simp only [not_true_eq_false, ha, hm, ite_false, Except.ok.injEq]
            constructor
            · rintro rfl
              exact ⟨rfl, hle, ha, hm⟩
            · exact fun h => h.1
        · simp only [not_false_eq_true, ha, ite_true, reduceCtorEq, false_iff]
          rintro ⟨rfl, -, haligned, -⟩
          exact ha haligned

/-- The offsets that all the slots designate, in slot order; the first bad slot is at fault. -/
def Memory.resolveSlots (size : BlockSize) (memory : Memory) : Except Fault (List Nat) :=
  memory.slots.toList.zipIdx.mapM fun (reference, slot) =>
    Buffer.resolve size memory.buffer slot reference

end Compaction

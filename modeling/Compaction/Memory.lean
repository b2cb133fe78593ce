/-!
# Memory

A memory is a flat byte buffer together with the reference slots that point into it. A block is
named by the offset of its first byte, and its first byte is also its marker: zero means free.

The operations here are the writes a compaction makes. None of them changes how many bytes or
how many slots there are, and a write outside the buffer or outside the slots has no effect.
-/

namespace Compaction

/-- The bytes of a memory. -/
abbrev Buffer := Array UInt8

/-- A byte offset into the buffer, or the null reference. -/
abbrev Reference := Option Nat

/-- The places that hold references, by number. -/
abbrev Slots := Array Reference

/-- A buffer and the slots that hold references into it. -/
structure Memory where
  buffer : Buffer := #[]
  slots : Slots := #[]
  deriving DecidableEq, Repr, Inhabited

namespace Buffer

/-- The `width` bytes from `offset` on, fewer where the buffer ends first. -/
def slice (buffer : Buffer) (offset width : Nat) : List UInt8 :=
  (buffer.extract offset (offset + width)).toList

/-- Writes the bytes one after the other, the first of them at `offset`. -/
def overwrite (buffer : Buffer) (offset : Nat) : List UInt8 → Buffer
  | [] => buffer
  | byte :: rest => overwrite (buffer.setIfInBounds offset byte) (offset + 1) rest

/-- Fills the buffer with zeros from `start` to its end. -/
def clearFrom (buffer : Buffer) (start : Nat) : Buffer :=
  buffer.extract 0 start ++ Array.replicate (buffer.size - start) 0

@[simp] theorem size_overwrite (buffer : Buffer) (offset : Nat) (bytes : List UInt8) :
    (buffer.overwrite offset bytes).size = buffer.size := by
  induction bytes generalizing buffer offset with
  | nil => rfl
  | cons byte rest ih => rw [overwrite, ih, Array.size_setIfInBounds]

theorem getElem?_slice (buffer : Buffer) (offset width i : Nat) :
    (buffer.slice offset width)[i]? = if i < width then buffer[offset + i]? else none := by
  rw [slice, Array.getElem?_toList, Array.getElem?_extract]
  by_cases hi : i < width
  · rw [if_pos hi]
    by_cases hb : offset + i < buffer.size
    · rw [if_pos (by omega)]
    · rw [if_neg (by omega), Array.getElem?_eq_none (by omega)]
  · rw [if_neg hi, if_neg (by omega)]

theorem length_slice {buffer : Buffer} {offset width : Nat} (h : offset + width ≤ buffer.size) :
    (buffer.slice offset width).length = width := by
  simp only [slice, Array.length_toList, Array.size_extract]
  omega

@[simp] theorem size_clearFrom (buffer : Buffer) (start : Nat) :
    (buffer.clearFrom start).size = buffer.size := by
  simp only [clearFrom, Array.size_append, Array.size_extract, Array.size_replicate]
  omega

end Buffer

namespace Slots

/-- Makes each of the named slots refer to `target`. -/
def assign (slots : Slots) (target : Nat) : (holders : List Nat) → Slots
  | [] => slots
  | slot :: rest => assign (slots.setIfInBounds slot (some target)) target rest

/-- The named slots refer to the target, the others to what they did. -/
theorem getElem?_assign (slots : Slots) (target : Nat) (holders : List Nat) (i : Nat) :
    (slots.assign target holders)[i]? =
      if i ∈ holders ∧ i < slots.size then some (some target) else slots[i]? := by
  induction holders generalizing slots with
  | nil => simp [assign]
  | cons slot rest ih =>
      rw [assign, ih, Array.size_setIfInBounds, Array.getElem?_setIfInBounds]
      by_cases hr : i ∈ rest ∧ i < slots.size
      · rw [if_pos hr, if_pos ⟨List.mem_cons_of_mem _ hr.1, hr.2⟩]
      · rw [if_neg hr]
        by_cases hs : slot = i
        · subst hs
          by_cases hi : slot < slots.size <;> simp [hi]
        · have hne : ¬(i ∈ slot :: rest ∧ i < slots.size) := by
            rintro ⟨hm, hi⟩
            rcases List.mem_cons.mp hm with rfl | hm
            · exact hs rfl
            · exact hr ⟨hm, hi⟩
          rw [if_neg hs, if_neg hne]

end Slots

namespace Memory

/-- Copies the block of `width` bytes at `source` over the one at `target`. -/
def copyBlock (memory : Memory) (width source target : Nat) : Memory :=
  { memory with buffer := memory.buffer.overwrite target (memory.buffer.slice source width) }

/-- Makes each of the named slots refer to `target`. -/
def retarget (memory : Memory) (target : Nat) (holders : List Nat) : Memory :=
  { memory with slots := memory.slots.assign target holders }

/-- Fills the buffer with zeros from `start` to its end. -/
def clearFrom (memory : Memory) (start : Nat) : Memory :=
  { memory with buffer := memory.buffer.clearFrom start }

end Memory

end Compaction

/-!
# Faults

What can be wrong with a request to compact, or to read a block. Every fault is found before a
byte or a slot is touched, so a request that meets one leaves its memory as it was.
-/

namespace Compaction

/-- Why a request was turned down. Widths, lengths, offsets and slots are those of the request. -/
inductive Fault where
  /-- The width asked for is none of the block sizes. -/
  | unsupportedWidth (width : Nat)
  /-- Not even one block fits into the buffer. -/
  | bufferTooShort (width length : Nat)
  /-- The buffer ends in the middle of a block. -/
  | unevenBuffer (length width : Nat)
  /-- The slot holds the null reference. -/
  | nullReference (slot : Nat)
  /-- The block the slot designates does not lie inside the buffer. -/
  | outOfBounds (slot offset length : Nat)
  /-- The slot designates an offset between two block boundaries. -/
  | unaligned (slot offset width : Nat)
  /-- The slot designates a block whose first byte marks it as free. -/
  | freeBlock (slot offset : Nat)
  deriving DecidableEq, Repr

namespace Fault

/-- The slot at fault, where the fault concerns one. -/
def slot? : Fault → Option Nat
  | unsupportedWidth _ => none
  | bufferTooShort _ _ => none
  | unevenBuffer _ _ => none
  | nullReference slot => some slot
  | outOfBounds slot _ _ => some slot
  | unaligned slot _ _ => some slot
  | freeBlock slot _ => some slot

/-- The fault in words. -/
def message : Fault → String
  | unsupportedWidth width =>
    s!"unsupported block size {width}, expected one of 1, 2, 4 or 8"
  | bufferTooShort width length =>
    s!"block size {width} exceeds buffer length {length}"
  | unevenBuffer length width =>
    s!"buffer length {length} is not a multiple of block size {width}"
  | nullReference slot =>
    s!"reference slot {slot} is null"
  | outOfBounds slot offset length =>
    s!"reference slot {slot} points at offset {offset}, outside buffer of length {length}"
  | unaligned slot offset width =>
    s!"reference slot {slot} points at offset {offset}, not aligned to {width}-byte blocks"
  | freeBlock slot offset =>
    s!"reference slot {slot} points at free block at offset {offset}"

end Fault

end Compaction

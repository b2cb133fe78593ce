/-!
# Block sizes

A buffer is cut into blocks of one width. The widths are the powers of two up to a machine
word, so of any two of them the narrower divides the wider: an offset on a boundary of the
wider grid is on a boundary of the narrower one too.
-/

namespace Compaction

/-- The width of the blocks a buffer is cut into. -/
inductive BlockSize where
  | one
  | two
  | four
  | eight
  deriving DecidableEq, Repr

namespace BlockSize

/-- Single bytes are the width used where none is asked for. -/
instance : Inhabited BlockSize := ⟨.one⟩

/-- Every width, narrowest first. -/
def all : List BlockSize := [.one, .two, .four, .eight]

/-- The number of bytes in one block. -/
def bytes : BlockSize → Nat
  | .one => 1
  | .two => 2
  | .four => 4
  | .eight => 8

/-- The width of `count` bytes, if there is one. -/
def ofBytes? : Nat → Option BlockSize
  | 1 => some .one
  | 2 => some .two
  | 4 => some .four
  | 8 => some .eight
  | _ => none

/-- The offset lies on a block boundary. -/
def Aligned (size : BlockSize) (offset : Nat) : Prop := size.bytes ∣ offset

instance (size : BlockSize) (offset : Nat) : Decidable (size.Aligned offset) :=
  inferInstanceAs (Decidable (size.bytes ∣ offset))

/-- The width as it is written in tables and log lines: the byte count and a `B`. -/
def label (size : BlockSize) : String := s!"{size.bytes}B"

instance : ToString BlockSize := ⟨label⟩

/-- The width in a word, as it is written in reports. -/
def name : BlockSize → String
  | .one => "One"
  | .two => "Two"
  | .four => "Four"
  | .eight => "Eight"

/-! ## The byte count determines the width -/

theorem bytes_pos (size : BlockSize) : 0 < size.bytes := by
  cases size <;> decide

@[simp] theorem ofBytes?_bytes (size : BlockSize) : ofBytes? size.bytes = some size := by
  cases size <;> rfl

theorem ofBytes?_eq_some_iff {count : Nat} {size : BlockSize} :
    ofBytes? count = some size ↔ size.bytes = count := by
  constructor
  · intro h
    unfold ofBytes? at h
    split at h <;> simp_all <;> subst h <;> rfl
  · rintro rfl
    exact ofBytes?_bytes size

theorem mem_all (size : BlockSize) : size ∈ all := by
  cases size <;> decide

/-- What is said of every width can be checked for one after the other. -/
instance {p : BlockSize → Prop} [DecidablePred p] : Decidable (∀ size, p size) :=
  decidable_of_iff (∀ size ∈ all, p size)
    ⟨fun hall size => hall size (mem_all size), fun hall size _ => hall size⟩

end BlockSize

end Compaction

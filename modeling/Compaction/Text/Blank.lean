/-!
# Blank characters

The characters with the Unicode property `White_Space`. They are twenty-five, all of them in the
basic plane; the zero-width space and the byte order mark are not among them.
-/

namespace Compaction.Text

/-- The code points of the blank characters, as ranges in ascending order, both ends included. -/
def blankRanges : List (Nat × Nat) :=
  [(0x0009, 0x000D), (0x0020, 0x0020), (0x0085, 0x0085), (0x00A0, 0x00A0), (0x1680, 0x1680),
    (0x2000, 0x200A), (0x2028, 0x2029), (0x202F, 0x202F), (0x205F, 0x205F), (0x3000, 0x3000)]

/-- The character is blank. -/
def isBlank (char : Char) : Bool :=
  blankRanges.any fun (first, last) => first ≤ char.toNat && char.toNat ≤ last

end Compaction.Text

import Compaction.Text.Blank
import Compaction.Text.Numeral

/-!
# Hexadecimal bytes

A byte is written as two upper-case digits, and bytes are set apart by single spaces. When read,
blank characters and underscores may stand anywhere, even inside a byte; what is left is taken
two characters at a time, each pair a numeral in base sixteen, so either case will do.
-/

namespace Compaction.Text

/-- Why a text is not a sequence of bytes. -/
inductive HexFault where
  /-- The characters cannot be paired. -/
  | oddCount (count : Nat)
  /-- A pair is not the numeral of a byte. -/
  | badPair (pair : String) (cause : NumeralFault)
  deriving DecidableEq, Repr

/-- The fault in words. -/
def HexFault.message : HexFault → String
  | oddCount count => s!"hex buffer has an odd number of digits ({count})"
  | badPair pair cause => s!"invalid hex byte: {pair}: {cause.message}"

namespace Hex

/-- The digit that counts `value`, which is below sixteen. -/
def digit (value : Nat) : Char :=
  if value < 10 then Char.ofNat (48 + value) else Char.ofNat (55 + value)

/-- The two digits of a byte, the higher one first. -/
def byteDigits (byte : UInt8) : List Char :=
  [digit (byte.toNat / 16), digit (byte.toNat % 16)]

/-- The bytes in upper-case digits, with a space between one byte and the next. -/
def encode (bytes : List UInt8) : String :=
  " ".intercalate (bytes.map fun byte => String.ofList (byteDigits byte))

/-- The character only sets digits apart. -/
def isSeparator (char : Char) : Bool := isBlank char || char == '_'

/-- The byte a pair of characters stands for. -/
def decodePair (high low : Char) : Except HexFault UInt8 :=
  match Numeral.read 16 255 [high, low] with
  | .ok value => .ok (UInt8.ofNat value)
  | .error cause => .error (.badPair (String.ofList [high, low]) cause)

/-- The bytes of characters taken two at a time; the first bad pair is at fault. -/
def decodePairs : List Char → Except HexFault (List UInt8)
  | high :: low :: rest =>
    match decodePair high low with
    | .ok byte => (decodePairs rest).map (byte :: ·)
    | .error fault => .error fault
  | _ => .ok []

/-- The bytes a text stands for. -/
def decode (text : String) : Except HexFault (List UInt8) :=
  let digits := text.toList.filter fun char => !isSeparator char
  if digits.length % 2 = 0 then decodePairs digits else .error (.oddCount digits.length)

/-- A digit counts what it was made for. -/
theorem digit?_digit {value : Nat} (h : value < 16) :
    Numeral.digit? 16 (digit value) = some value := by
  have all : ∀ v ∈ List.range 16, Numeral.digit? 16 (digit v) = some v := by decide
  exact all value (List.mem_range.mpr h)

end Hex

end Compaction.Text

import Compaction.CommandLine.Token
import Compaction.Fault
import Compaction.Memory
import Compaction.Text.Hex

/-!
# Commands

What the arguments ask for: the buffer in hexadecimal digits, then the references in decimal or
as `null`, and a block size, single bytes unless an option says otherwise. Options may stand
anywhere among the operands, and of several block sizes the last one counts.

Options are read before operands, from left to right. The first that cannot be read is reported
unless help was asked for before it, and once help is asked for nothing else is read.
-/

namespace Compaction

open Text

/-- Why nothing was compacted. -/
inductive CommandFault where
  /-- There is no buffer among the arguments. -/
  | missingBuffer
  /-- The option for the block size has no value. -/
  | missingWidth
  /-- The block size is not a number. -/
  | badWidth (text : String) (cause : NumeralFault)
  /-- The buffer is not hexadecimal. -/
  | badBuffer (cause : HexFault)
  /-- A reference is neither null nor a number. -/
  | badReference (text : String) (cause : NumeralFault)
  /-- The arguments can be read, and the compaction they ask for was turned down. -/
  | rejected (cause : Fault)
  deriving DecidableEq, Repr

/-- How the program is called. -/
def usage : String := "usage: block-compactor [-b|--block-size N] <HEX_BUFFER> [OFFSET|null ...]"

/-- The fault in words, with its cause behind it. -/
def CommandFault.message : CommandFault → String
  | missingBuffer => usage
  | missingWidth => "missing value for --block-size"
  | badWidth text cause => s!"invalid block size: {text}: {cause.message}"
  | badBuffer cause => cause.message
  | badReference text cause => s!"invalid reference offset: {text}: {cause.message}"
  | rejected cause => s!"compaction rejected: {cause.message}"

/-- What the arguments ask for. -/
inductive Command where
  /-- To show how the program is called. -/
  | help
  /-- To compact a memory with blocks of `width` bytes. -/
  | compact (width : Nat) (memory : Memory)
  deriving DecidableEq, Repr

namespace Command

/-- The largest number that a width or an offset may be, which fills a word of 64 bits. -/
def wordLimit : Nat := UInt64.size - 1

/-- Reads the value of the option for the block size. Any number will do here. -/
def readWidth (text : String) : Except CommandFault Nat :=
  match Numeral.read 10 wordLimit text.toList with
  | .ok width => .ok width
  | .error cause => .error (.badWidth text cause)

/-- The text is the word for the null reference, in letters of either case. -/
def isNull (text : String) : Bool :=
  text.toList.map Char.toLower == ['n', 'u', 'l', 'l']

/-- Reads a reference. -/
def readReference (text : String) : Except CommandFault Reference :=
  if isNull text then
    .ok none
  else
    match Numeral.read 10 wordLimit text.toList with
    | .ok offset => .ok (some offset)
    | .error cause => .error (.badReference text cause)

/-- Reads the buffer. -/
def readBuffer (text : String) : Except CommandFault Buffer :=
  match Hex.decode text with
  | .ok bytes => .ok bytes.toArray
  | .error cause => .error (.badBuffer cause)

/--
The width that the options settle on when it is `width` before them, or none when help is asked
for.
-/
def settleWidth (width : Nat) : List Token → Except CommandFault (Option Nat)
  | [] => .ok (some width)
  | .help :: _ => .ok none
  | .width none :: _ => .error .missingWidth
  | .width (some text) :: rest =>
    match readWidth text with
    | .ok width => settleWidth width rest
    | .error fault => .error fault
  | .operand _ :: rest => settleWidth width rest

/-- The memory that the operands describe, the buffer first and then the references. -/
def readMemory : List String → Except CommandFault Memory
  | [] => .error .missingBuffer
  | text :: references => do
    let buffer ← readBuffer text
    let slots ← references.mapM readReference
    return { buffer, slots := slots.toArray }

/-- The command that tokens make up. -/
def ofTokens (tokens : List Token) : Except CommandFault Command :=
  match settleWidth 1 tokens with
  | .error fault => .error fault
  | .ok none => .ok .help
  | .ok (some width) => (readMemory (tokens.filterMap Token.operand?)).map (.compact width)

/-- The command that arguments make up. -/
def ofArguments (arguments : List String) : Except CommandFault Command :=
  ofTokens (Token.ofArguments arguments)

end Command

end Compaction

import Compaction.CommandLine.Command
import Compaction.Compact

/-!
# Exits

What a run prints in the end: a memory after its compaction, or the usage, on standard output; or a
fault on standard error, and then nothing on standard output and an exit code that says so.

The log, which goes to standard error too, is no part of an exit. An exit is known from the
arguments, while the log of a run says how long it took.
-/

namespace Compaction

/-- The exit code of a run and what it printed. -/
structure Exit where
  code : UInt32 := 0
  stdout : String := ""
  /-- What was wrong. The log is not counted in. -/
  stderr : String := ""
  deriving DecidableEq, Repr

/-- The reference as it is printed. -/
def Reference.text : Reference → String
  | none => "null"
  | some offset => toString offset

/-- The memory as it is printed: a line for the buffer and a line for the references. -/
def Memory.text (memory : Memory) : String :=
  let buffer := Text.Hex.encode memory.buffer.toList
  let references := ", ".intercalate (memory.slots.toList.map Reference.text)
  s!"buffer:     {buffer}\nreferences: [{references}]\n"

namespace Exit

/-- The end of a run that failed. -/
def failure (fault : CommandFault) : Exit :=
  { code := 1, stderr := s!"Error: {fault.message}\n" }

/-- The end of a run that was to compact a memory. -/
def ofOutcome (outcome : Outcome) : Exit :=
  match outcome.result with
  | .ok _ => { stdout := outcome.memory.text }
  | .error fault => failure (.rejected fault)

/-- The end of a run that was to carry out a command. -/
def ofCommand : Command → Exit
  | .help => { stdout := usage ++ "\n" }
  | .compact width memory => ofOutcome (memory.compactWidth width)

/-- The end of a run that was given arguments. -/
def ofArguments (arguments : List String) : Exit :=
  match Command.ofArguments arguments with
  | .ok command => ofCommand command
  | .error fault => failure fault

end Exit

end Compaction

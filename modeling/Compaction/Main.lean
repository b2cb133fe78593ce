import Compaction.CommandLine.Run

/-!
# The program

Hands over the arguments and a clock, and prints what comes back. Of the log it shows what is meant
to be read without asking for more.
-/

/-- Runs the program with its arguments. -/
def main (arguments : List String) : IO UInt32 := do
  let clock : IO Compaction.Duration := do
    return (Compaction.Duration.ofNanos? (← IO.monoNanosNow)).getD .zero
  let run ← Compaction.Run.ofArguments clock arguments
  for entry in run.log do
    if entry.level = .info then
      IO.eprintln entry.line
  IO.print run.exit.stdout
  IO.eprint run.exit.stderr
  return run.exit.code

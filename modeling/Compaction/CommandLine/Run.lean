import Compaction.CommandLine.Exit
import Compaction.Stopwatch
import Compaction.Timings

/-!
# Runs of the program

A run has an exit and a log. What is logged is the journal of the pass, then its report with the
time it took by a clock, and the timings of this one pass as a table. A run without a pass logs
nothing, and neither does one whose pass is turned down.

All records are listed, whatever their level. Which of them are shown is for the environment to say.
-/

namespace Compaction

/-- What a run of the program leaves behind. -/
structure Run where
  exit : Exit
  log : List LogRecord := []
  deriving DecidableEq, Repr

/-- The report of a pass and the time it took, as an entry of the log. -/
def Report.entry (report : Report) (elapsed : Duration) : LogRecord :=
  { level := .info, text := report.text ++ " in " ++ elapsed.text }

namespace Run

/-- The run of a pass that had this outcome and took `elapsed`. -/
def ofOutcome (outcome : Outcome) (elapsed : Duration) : Run :=
  { exit := .ofOutcome outcome
    log :=
      outcome.journal.map Event.entry ++
        match outcome.result with
        | .ok report => [report.entry elapsed, (Timings.single report elapsed).summary]
        | .error _ => [] }

variable {m : Type → Type} [Monad m]

/-- Carries out a command, and times the pass by a clock. -/
def ofCommand (clock : m Duration) : Command → m Run
  | .help => return { exit := .ofCommand .help }
  | .compact width memory => do
    let (outcome, elapsed) ← Stopwatch.time clock (pure (memory.compactWidth width))
    return ofOutcome outcome elapsed

/-- Carries out what the arguments ask for. -/
def ofArguments (clock : m Duration) (arguments : List String) : m Run :=
  match Command.ofArguments arguments with
  | .ok command => ofCommand clock command
  | .error fault => return { exit := .failure fault }

end Run

end Compaction

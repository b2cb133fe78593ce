import Compaction.CommandLine.Run
import Compaction.Proofs.Acceptance
import Compaction.Proofs.TableText

/-!
# What a run logs

A run reads its clock twice, before the pass and after it (`Run.ofCommand_compact`). What comes of
this is known from the outcome of the pass and the time in between, so it is enough to look at
`Run.ofOutcome`. The exit does not depend on the time: with any clock the program ends as
`Exit.ofArguments` says.

The log does. When the pass has succeeded, its time stands behind the report and in the only row of
the table, where it is the average, the fastest and the slowest time at once. Times are written
without a loss, so from the log of a run it can be told how long the pass took.
-/

namespace Compaction

/-! ## A single pass -/

theorem Series.average_single (report : Report) (elapsed : Duration) :
    (Series.single report elapsed).average = elapsed := by
  refine Duration.eq_of_nanos_eq ?_
  show elapsed.nanos / 1 = elapsed.nanos
  exact Nat.div_one _

theorem Timings.cells_single (report : Report) (elapsed : Duration) :
    (Timings.single report elapsed).cells =
      [[report.blockSize.label, elapsed.text, Lap.text ⟨1, elapsed⟩, Lap.text ⟨1, elapsed⟩,
        toString 1, toString report.movedBytes, toString report.freedBytes]] := by
  show [Timings.rowCells report.blockSize (Series.single report elapsed)] = _
  rw [Timings.rowCells, Series.average_single]
  rfl

/-- **The only row of a run is read from its table.** -/
theorem Timings.readRows_single (report : Report) (elapsed : Duration) :
    TextTable.readRows (Timings.single report elapsed).table.text =
      [[report.blockSize.label, elapsed.text, Lap.text ⟨1, elapsed⟩, Lap.text ⟨1, elapsed⟩,
        toString 1, toString report.movedBytes, toString report.freedBytes]] :=
  (Timings.single report elapsed).legible_table.readRows_text.trans
    (Timings.cells_single report elapsed)

/-- The time behind a report tells how long the pass took. -/
theorem Report.entry_inj {report : Report} {first second : Duration} :
    report.entry first = report.entry second ↔ first = second := by
  refine ⟨fun h => ?_, fun h => h ▸ rfl⟩
  have htext : report.text ++ " in " ++ first.text = report.text ++ " in " ++ second.text :=
    congrArg LogRecord.text h
  have hchars := congrArg String.toList htext
  rw [String.toList_append, @String.toList_append _ second.text] at hchars
  exact Duration.text_inj.mp (String.toList_inj.mp (List.append_cancel_left hchars))

example :
    (Report.entry { blockSize := .two, liveBlocks := 2, movedBlocks := 1, liveBytes := 4,
                    freedBytes := 2 } ⟨1500, by decide⟩).line =
      "INFO CompactionReport \x7b block_size: Two, live_blocks: 2, moved_blocks: 1, " ++
        "live_bytes: 4, freed_bytes: 2 \x7d in 1.5µs" := by
  decide +kernel

namespace Run

variable {outcome : Outcome} {report : Report} {fault : Fault} {elapsed first second : Duration}

/-! ## The log of an outcome -/

theorem log_of_ok (h : outcome.result = .ok report) (elapsed : Duration) :
    (ofOutcome outcome elapsed).log =
      outcome.journal.map Event.entry ++
        [report.entry elapsed, (Timings.single report elapsed).summary] := by
  rw [ofOutcome, h]

/-- **A run can always record its pass**, in timings of its own, and logs them. -/
theorem exists_log_of_ok (h : outcome.result = .ok report) (elapsed : Duration) :
    ∃ timings, Timings.record {} report elapsed = .ok timings ∧
      (ofOutcome outcome elapsed).log =
        outcome.journal.map Event.entry ++ [report.entry elapsed, timings.summary] :=
  ⟨Timings.single report elapsed, Timings.record_empty report elapsed, log_of_ok h elapsed⟩

/-- A run whose pass is turned down logs nothing. -/
theorem log_of_error {width : Nat} {memory : Memory}
    (h : (memory.compactWidth width).result = .error fault) (elapsed : Duration) :
    (ofOutcome (memory.compactWidth width) elapsed).log = [] := by
  rw [Memory.compactWidth_of_error h]
  rfl

/-- **The log tells how long the pass took.** -/
theorem log_inj (h : outcome.result = .ok report) :
    (ofOutcome outcome first).log = (ofOutcome outcome second).log ↔ first = second := by
  refine ⟨fun hlog => ?_, fun heq => heq ▸ rfl⟩
  rw [log_of_ok h, log_of_ok h] at hlog
  have hentries := List.append_cancel_left hlog
  exact Report.entry_inj.mp (List.cons.inj hentries).1

/-! ## Runs by a clock -/

variable {m : Type → Type} [Monad m] [LawfulMonad m] {clock : m Duration}

theorem ofCommand_compact (clock : m Duration) (width : Nat) (memory : Memory) :
    ofCommand clock (.compact width memory) = do
      let started ← clock
      let stopped ← clock
      return ofOutcome (memory.compactWidth width) (stopped.sub started) := by
  simp only [ofCommand, Stopwatch.time, Stopwatch.start, Stopwatch.elapsed, bind_assoc, pure_bind]

/-- **No clock makes a difference to how a run ends.** -/
theorem map_exit_ofArguments (clock : m Duration) (arguments : List String) :
    exit <$> ofArguments clock arguments =
      (fun _ => Exit.ofArguments arguments) <$> ofArguments clock arguments := by
  cases hcommand : Command.ofArguments arguments with
  | error fault => simp only [ofArguments, Exit.ofArguments, hcommand, map_pure]
  | ok command =>
      simp only [ofArguments, Exit.ofArguments, hcommand]
      cases command with
      | help => simp only [ofCommand, map_pure]
      | compact width memory =>
          rw [ofCommand_compact]
          simp only [map_bind, map_pure]
          rfl

end Run

end Compaction

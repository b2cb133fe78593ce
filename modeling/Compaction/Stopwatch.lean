import Compaction.Duration

/-!
# Stopwatches

Timing an action by a clock. The clock is an action of its own that answers the time since some
fixed moment, so what is measured depends on the monad it ticks in.
-/

namespace Compaction

/-- A running stopwatch, which knows what the clock said when it was started. -/
structure Stopwatch where
  started : Duration

namespace Stopwatch

variable {m : Type → Type} [Monad m] {α : Type}

/-- Starts a stopwatch. -/
def start (clock : m Duration) : m Stopwatch := do
  return ⟨← clock⟩

/-- The time since the stopwatch was started. -/
def elapsed (watch : Stopwatch) (clock : m Duration) : m Duration := do
  return (← clock).sub watch.started

/-- Runs an action and measures how long it takes. -/
def time (clock : m Duration) (action : m α) : m (α × Duration) := do
  let watch ← start clock
  let result ← action
  return (result, ← watch.elapsed clock)

end Stopwatch

end Compaction

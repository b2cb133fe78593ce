import Compaction.Timings
import Mathlib.Algebra.GroupWithZero.Nat
import Mathlib.Data.List.Basic
import Mathlib.Order.RelClasses

/-!
# What a series says of its passes

A series forgets the passes it was given and keeps a few totals and two laps. `Series.Summarizes`
says what these have to do with the passes: the totals are sums over all of them, and each of the
two laps `Leads` in its way, the fastest by the shortest time and the slowest by the longest. One
more pass recorded is one more pass summarized, as long as the total time fits into a duration.

Among equal times the earliest leads. So a lap that leads is known from the times alone, number and
all, and two series that summarize the same passes are equal.
-/

namespace Compaction

/-- A pass as it is recorded. -/
structure TimedPass where
  report : Report
  elapsed : Duration

/-- The time that passes took together, in nanoseconds. It may be longer than any duration. -/
def totalTime (passes : List TimedPass) : Nat := (passes.map fun pass => pass.elapsed.nanos).sum

theorem totalTime_append (first second : List TimedPass) :
    totalTime (first ++ second) = totalTime first + totalTime second := by
  rw [totalTime, List.map_append, List.sum_append]
  rfl

/-! ## Durations in order -/

theorem Duration.eq_of_nanos_eq {first second : Duration} (h : first.nanos = second.nanos) :
    first = second := by
  cases first
  cases second
  cases h
  rfl

instance : IsStrictTotalOrder Duration (· < ·) where
  irrefl time := Nat.lt_irrefl time.nanos
  trans _ _ _ := Nat.lt_trans
  trichotomous _ _ hlt hgt :=
    Duration.eq_of_nanos_eq (Nat.le_antisymm (Nat.le_of_not_lt hgt) (Nat.le_of_not_lt hlt))

/-! ## The lap that leads -/

/-- Of the times that no other beats the lap has the earliest. -/
structure Lap.Leads (beats : Duration → Duration → Prop) (times : List Duration) (lap : Lap) :
    Prop where
  /-- Times are numbered from one. -/
  index : lap.index = times.idxOf lap.elapsed + 1
  mem : lap.elapsed ∈ times
  unbeaten : ∀ time ∈ times, ¬beats time lap.elapsed

namespace Lap

variable {beats : Duration → Duration → Prop} [IsStrictTotalOrder Duration beats]
  {times : List Duration} {lap other : Lap}

theorem leads_singleton (elapsed : Duration) : Leads beats [elapsed] ⟨1, elapsed⟩ where
  index := by simp
  mem := List.mem_singleton_self elapsed
  unbeaten time htime := by
    obtain rfl := List.mem_singleton.mp htime
    exact irrefl time

/-- **A new time takes the lead only if it beats the lap that has it.** -/
theorem Leads.concat [DecidableRel beats] (h : lap.Leads beats times) (elapsed : Duration) :
    Leads beats (times ++ [elapsed])
      (if beats elapsed lap.elapsed then ⟨times.length + 1, elapsed⟩ else lap) := by
  by_cases hbeats : beats elapsed lap.elapsed
  · rw [if_pos hbeats]
    -- a time that beats the leading one is a new one
    have hnew : elapsed ∉ times := fun hmem => h.unbeaten elapsed hmem hbeats
    refine ⟨?_, by simp, fun time htime hbetter => ?_⟩
    · rw [List.idxOf_append_of_notMem hnew, List.idxOf_cons_self, Nat.add_zero]
    · rcases List.mem_append.mp htime with hold | hlast
      · exact h.unbeaten time hold (IsTrans.trans _ _ _ hbetter hbeats)
      · obtain rfl := List.mem_singleton.mp hlast
        exact irrefl time hbetter
  · rw [if_neg hbeats]
    refine ⟨?_, List.mem_append_left _ h.mem, fun time htime => ?_⟩
    · rw [List.idxOf_append_of_mem h.mem, h.index]
    · rcases List.mem_append.mp htime with hold | hlast
      · exact h.unbeaten time hold
      · obtain rfl := List.mem_singleton.mp hlast
        exact hbeats

/-- **Only one lap leads.** -/
theorem Leads.unique (h : lap.Leads beats times) (hother : other.Leads beats times) :
    lap = other := by
  have htime : lap.elapsed = other.elapsed :=
    Std.Trichotomous.trichotomous _ _ (hother.unbeaten _ h.mem) (h.unbeaten _ hother.mem)
  have hindex : lap.index = other.index := by rw [h.index, hother.index, htime]
  cases lap
  cases other
  cases htime
  cases hindex
  rfl

end Lap

/-! ## Summaries -/

namespace Series

/-- The series is what is known of the passes, recorded in that order. -/
structure Summarizes (passes : List TimedPass) (series : Series) : Prop where
  length : series.passes = passes.length
  total : series.total.nanos = totalTime passes
  fastest : series.fastest.Leads (· < ·) (passes.map TimedPass.elapsed)
  slowest : series.slowest.Leads (· > ·) (passes.map TimedPass.elapsed)
  movedBytes : series.movedBytes = (passes.map fun pass => pass.report.movedBytes).sum
  freedBytes : series.freedBytes = (passes.map fun pass => pass.report.freedBytes).sum

variable {passes : List TimedPass} {series other : Series}

theorem summarizes_single (pass : TimedPass) :
    (single pass.report pass.elapsed).Summarizes [pass] where
  length := rfl
  total := rfl
  fastest := Lap.leads_singleton pass.elapsed
  slowest := Lap.leads_singleton pass.elapsed
  movedBytes := rfl
  freedBytes := rfl

/-- A lap that leads the passes recorded so far keeps the lead, or the next pass takes it. -/
theorem Summarizes.leads_concat {beats : Duration → Duration → Prop}
    [IsStrictTotalOrder Duration beats] [DecidableRel beats] (h : series.Summarizes passes)
    {lap : Lap} (hlap : lap.Leads beats (passes.map TimedPass.elapsed)) (pass : TimedPass) :
    Lap.Leads beats ((passes ++ [pass]).map TimedPass.elapsed)
      (if beats pass.elapsed lap.elapsed then ⟨series.passes + 1, pass.elapsed⟩ else lap) := by
  have hnext := hlap.concat pass.elapsed
  rw [List.length_map, ← h.length] at hnext
  rw [List.map_append]
  exact hnext

/-- **One more pass is recorded.** -/
theorem Summarizes.record (h : series.Summarizes passes) {pass : TimedPass}
    (hfits : totalTime (passes ++ [pass]) ≤ Duration.limit) :
    ∃ next, series.record pass.report pass.elapsed = .ok next ∧
      next.Summarizes (passes ++ [pass]) := by
  have htotal : totalTime (passes ++ [pass]) = series.total.nanos + pass.elapsed.nanos := by
    rw [totalTime_append, h.total]
    rfl
  have hadd : series.total.add pass.elapsed = .ok ⟨totalTime (passes ++ [pass]), hfits⟩ :=
    Duration.add_eq_ok_iff.mpr htotal
  rw [Series.record, hadd]
  refine ⟨_, rfl, ?_, rfl, h.leads_concat h.fastest pass, h.leads_concat h.slowest pass, ?_, ?_⟩
  · rw [List.length_append, h.length]
    rfl
  · rw [List.map_append, List.sum_append, h.movedBytes]
    rfl
  · rw [List.map_append, List.sum_append, h.freedBytes]
    rfl

/-- **The passes determine the series.** -/
theorem Summarizes.unique (h : series.Summarizes passes) (hother : other.Summarizes passes) :
    series = other := by
  have htotal : series.total = other.total :=
    Duration.eq_of_nanos_eq (h.total.trans hother.total.symm)
  cases series
  cases other
  simp only [mk.injEq]
  exact ⟨h.length.trans hother.length.symm, htotal, h.fastest.unique hother.fastest,
    h.slowest.unique hother.slowest, h.movedBytes.trans hother.movedBytes.symm,
    h.freedBytes.trans hother.freedBytes.symm⟩

end Series

end Compaction

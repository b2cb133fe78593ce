import Compaction.Proofs.Grouping

/-!
# The fastest and the slowest pass

A row keeps two of its passes by number. The number is counted among the passes at the block size of
the row, whatever lies between them, and of equal times the earliest is the one that counts. Both
come from `Lap.Leads`, which each pass recorded keeps up (`Lap.Leads.concat`): the new time takes
the lead only if it beats the leading one.
-/

namespace Compaction

/-- The times of the passes of a history at one block size, in the order they were recorded. -/
def timesAt (size : BlockSize) (history : List TimedPass) : List Duration :=
  (passesAt size history).map TimedPass.elapsed

/-- A lap that leads has the number of the first time equal to its own, counted from one. -/
theorem Lap.Leads.exists_index {beats : Duration → Duration → Prop} {times : List Duration}
    {lap : Lap} (h : lap.Leads beats times) :
    ∃ index, lap = ⟨index + 1, lap.elapsed⟩ ∧ times[index]? = some lap.elapsed ∧
      ∀ earlier < index, times[earlier]? ≠ some lap.elapsed := by
  refine ⟨times.idxOf lap.elapsed, ?_, List.getElem?_idxOf h.mem, fun earlier hlt hget => ?_⟩
  · rw [← h.index]
  · have hmem : lap.elapsed ∈ times.take (earlier + 1) := by
      rw [List.mem_take_iff_getElem]
      obtain ⟨hlength, htime⟩ := List.getElem?_eq_some_iff.mp hget
      exact ⟨earlier, by omega, htime⟩
    have hfirst := (List.mem_take_iff_idxOf_lt h.mem).mp hmem
    omega

/--
**The fastest and the slowest pass of a row are the earliest of their kind.**

Let the passes of a history take no longer together, at each block size, than a duration can say.
Then they can be recorded one after the other, and there is a row for each block size that occurs.
Take the times of the passes at it. The fastest lap of the row has the least of them, and the
slowest the greatest, and each has the number, counted from one, of the first pass that took this
time.
-/
theorem recordAll_extremes {history : List TimedPass}
    (hfits : ∀ size, totalTime (passesAt size history) ≤ Duration.limit) :
    ∃ timings, Timings.recordAll {} history = .ok timings ∧
      ∀ size, passesAt size history ≠ [] →
        ∃ series, timings.series? size = some series ∧ (size, series) ∈ timings.rows ∧
          (∃ index elapsed, series.fastest = ⟨index + 1, elapsed⟩ ∧
            (timesAt size history)[index]? = some elapsed ∧
            (∀ time ∈ timesAt size history, elapsed.nanos ≤ time.nanos) ∧
            ∀ earlier < index, (timesAt size history)[earlier]? ≠ some elapsed) ∧
          ∃ index elapsed, series.slowest = ⟨index + 1, elapsed⟩ ∧
            (timesAt size history)[index]? = some elapsed ∧
            (∀ time ∈ timesAt size history, time.nanos ≤ elapsed.nanos) ∧
            ∀ earlier < index, (timesAt size history)[earlier]? ≠ some elapsed := by
  obtain ⟨timings, hrun, hgroups⟩ := Timings.exists_groups_of_fits hfits
  refine ⟨timings, hrun, fun size hsome => ?_⟩
  obtain ⟨series, hseries, hrow, hsummary⟩ := hgroups.exists_series hsome
  refine ⟨series, hseries, hrow, ?_, ?_⟩
  · obtain ⟨index, hlap, hget, hfirst⟩ := hsummary.fastest.exists_index
    exact ⟨index, series.fastest.elapsed, hlap, hget,
      fun time htime => Nat.le_of_not_lt (hsummary.fastest.unbeaten time htime), hfirst⟩
  · obtain ⟨index, hlap, hget, hfirst⟩ := hsummary.slowest.exists_index
    exact ⟨index, series.slowest.elapsed, hlap, hget,
      fun time htime => Nat.le_of_not_lt (hsummary.slowest.unbeaten time htime), hfirst⟩

theorem recordAll_extremes_interleaved :
    ∃ timings series, Timings.recordAll {} interleaved = .ok timings ∧
      timings.series? .two = some series ∧
      series.fastest = ⟨2, ⟨10000, by decide⟩⟩ ∧ series.slowest = ⟨3, ⟨50000, by decide⟩⟩ ∧
      (∀ time ∈ timesAt .two interleaved, 10000 ≤ time.nanos ∧ time.nanos ≤ 50000) ∧
      (timesAt .two interleaved)[1]? = some ⟨10000, by decide⟩ ∧
      (timesAt .two interleaved)[2]? = some ⟨50000, by decide⟩ := by
  have hrun : Timings.recordAll {} interleaved = .ok
      { rows := [
          (.two, ⟨5, ⟨150000, by decide⟩, ⟨2, ⟨10000, by decide⟩⟩, ⟨3, ⟨50000, by decide⟩⟩, 6, 10⟩),
          (.one, ⟨1, ⟨1, by decide⟩, ⟨1, ⟨1, by decide⟩⟩, ⟨1, ⟨1, by decide⟩⟩, 3, 1⟩)] } := by
    decide +kernel
  obtain ⟨timings, hagain, hrows⟩ := recordAll_extremes interleaved_fits
  obtain rfl := Except.ok.inj (hrun.symm.trans hagain)
  obtain ⟨series, hseries, -, ⟨fast, best, hfastest, hfast, hleast, -⟩,
    ⟨slow, worst, hslowest, hslow, hgreatest, -⟩⟩ := hrows .two (by decide)
  cases hseries
  cases hfastest
  cases hslowest
  exact ⟨_, _, hrun, rfl, rfl, rfl, fun time htime => ⟨hleast time htime, hgreatest time htime⟩,
    hfast, hslow⟩

end Compaction

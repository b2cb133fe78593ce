import Compaction.Proofs.Extremes
import Mathlib.Algebra.Group.Action.Defs
import Mathlib.Algebra.Order.BigOperators.Group.List
import Mathlib.Algebra.Order.Group.Nat

/-!
# The average pass

The average of a row is a quotient of two running totals, and its extremes are found by comparing
times. That the one lies between the others is not kept up by any step of its own: it follows from
what the row says of its passes (`Series.Summarizes`). The total of some times is at least as long
as the shortest of them as often as they are many, at most as long as the longest, and a division
that rounds down stays within both bounds.

A row has been recorded at least once, so there is something to divide by.
-/

namespace Compaction

/-! ## Totals between bounds -/

section Bounds

variable {passes : List TimedPass} {bound : Nat}

theorem mul_le_totalTime (h : ∀ pass ∈ passes, bound ≤ pass.elapsed.nanos) :
    passes.length * bound ≤ totalTime passes := by
  have hsum := List.card_nsmul_le_sum (passes.map fun pass => pass.elapsed.nanos) bound
    (List.forall_mem_map.mpr h)
  rwa [List.length_map, smul_eq_mul] at hsum

theorem totalTime_le_mul (h : ∀ pass ∈ passes, pass.elapsed.nanos ≤ bound) :
    totalTime passes ≤ passes.length * bound := by
  have hsum := List.sum_le_card_nsmul (passes.map fun pass => pass.elapsed.nanos) bound
    (List.forall_mem_map.mpr h)
  rwa [List.length_map, smul_eq_mul] at hsum

/-- One shorter pass is enough to stay below the bound. -/
theorem totalTime_lt_mul (h : ∀ pass ∈ passes, pass.elapsed.nanos ≤ bound) {short : TimedPass}
    (hshort : short ∈ passes) (hlt : short.elapsed.nanos < bound) :
    totalTime passes < passes.length * bound := by
  have hsum := List.sum_lt_sum (fun pass : TimedPass => pass.elapsed.nanos) (fun _ => bound) h
    ⟨short, hshort, hlt⟩
  rwa [List.map_const', List.sum_replicate, smul_eq_mul] at hsum

end Bounds

/-! ## The average of a row -/

namespace Series

variable {passes : List TimedPass} {series : Series}

/-- A series is of at least one pass, for some pass was the fastest. -/
theorem Summarizes.passes_pos (h : series.Summarizes passes) : 0 < series.passes := by
  rw [h.length, ← List.length_map TimedPass.elapsed]
  exact List.length_pos_of_mem h.fastest.mem

theorem mul_average_le (series : Series) :
    series.passes * series.average.nanos ≤ series.total.nanos :=
  Nat.mul_div_le _ _

theorem lt_mul_average_add_one (h : 0 < series.passes) :
    series.total.nanos < series.passes * (series.average.nanos + 1) :=
  Nat.lt_mul_div_succ _ h

theorem Summarizes.fastest_le (h : series.Summarizes passes) :
    ∀ pass ∈ passes, series.fastest.elapsed.nanos ≤ pass.elapsed.nanos :=
  fun _ hpass => Nat.le_of_not_lt (h.fastest.unbeaten _ (List.mem_map_of_mem hpass))

theorem Summarizes.le_slowest (h : series.Summarizes passes) :
    ∀ pass ∈ passes, pass.elapsed.nanos ≤ series.slowest.elapsed.nanos :=
  fun _ hpass => Nat.le_of_not_lt (h.slowest.unbeaten _ (List.mem_map_of_mem hpass))

/-- **The average is not below the fastest time.** -/
theorem Summarizes.fastest_le_average (h : series.Summarizes passes) :
    series.fastest.elapsed.nanos ≤ series.average.nanos := by
  refine (Nat.le_div_iff_mul_le h.passes_pos).mpr ?_
  rw [Nat.mul_comm, h.length, h.total]
  exact mul_le_totalTime h.fastest_le

/-- **The average is not above the slowest time.** -/
theorem Summarizes.average_le_slowest (h : series.Summarizes passes) :
    series.average.nanos ≤ series.slowest.elapsed.nanos := by
  refine Nat.div_le_of_le_mul ?_
  rw [h.length, h.total]
  exact totalTime_le_mul h.le_slowest

/-- **The average reaches the slowest time only where every pass took that long.** -/
theorem Summarizes.average_eq_slowest_iff (h : series.Summarizes passes) :
    series.average = series.slowest.elapsed ↔
      ∀ pass ∈ passes, pass.elapsed = series.slowest.elapsed := by
  refine ⟨fun heq pass hpass => ?_, fun hsame => ?_⟩
  · by_contra hne
    have hlt : pass.elapsed.nanos < series.slowest.elapsed.nanos :=
      Nat.lt_of_le_of_ne (h.le_slowest pass hpass) (mt Duration.eq_of_nanos_eq hne)
    -- then the total would be too short for the quotient
    have hshort := totalTime_lt_mul h.le_slowest hpass hlt
    have hlong := series.mul_average_le
    rw [heq, h.length, h.total] at hlong
    omega
  · -- if all times are the slowest one, the fastest is too, and the average is in between
    obtain ⟨pass, hpass, htime⟩ := List.mem_map.mp h.fastest.mem
    have hfast := h.fastest_le_average
    rw [← htime, hsame pass hpass] at hfast
    exact Duration.eq_of_nanos_eq (Nat.le_antisymm h.average_le_slowest hfast)

end Series

/--
**The average of a row is consistent with its extremes.**

Let the passes of a history take no longer together, at each block size, than a duration can say.
Then they can be recorded one after the other. In every row the number of passes is not zero, and
the average is the total divided by that number and rounded down to a nanosecond. It lies between
the fastest time and the slowest, and is equal to the slowest if and only if all passes at that
block size took equally long.
-/
theorem recordAll_average {history : List TimedPass}
    (hfits : ∀ size, totalTime (passesAt size history) ≤ Duration.limit) :
    ∃ timings, Timings.recordAll {} history = .ok timings ∧
      ∀ size series, (size, series) ∈ timings.rows →
        0 < series.passes ∧
        series.passes * series.average.nanos ≤ series.total.nanos ∧
        series.total.nanos < series.passes * (series.average.nanos + 1) ∧
        series.fastest.elapsed.nanos ≤ series.average.nanos ∧
        series.average.nanos ≤ series.slowest.elapsed.nanos ∧
        (series.average = series.slowest.elapsed ↔
          ∀ first ∈ timesAt size history, ∀ second ∈ timesAt size history, first = second) := by
  obtain ⟨timings, hrun, hgroups⟩ := Timings.exists_groups_of_fits hfits
  refine ⟨timings, hrun, fun size series hrow => ?_⟩
  have hsummary := hgroups.series _ hrow
  have hpos := hsummary.passes_pos
  refine ⟨hpos, series.mul_average_le, Series.lt_mul_average_add_one hpos,
    hsummary.fastest_le_average, hsummary.average_le_slowest, ?_⟩
  rw [hsummary.average_eq_slowest_iff]
  refine ⟨fun hsame first hfirst second hsecond => ?_, fun hsame pass hpass => ?_⟩
  · obtain ⟨one, hone, rfl⟩ := List.mem_map.mp hfirst
    obtain ⟨two, htwo, rfl⟩ := List.mem_map.mp hsecond
    rw [hsame one hone, hsame two htwo]
  · exact hsame _ (List.mem_map_of_mem hpass) _ hsummary.slowest.mem

/--
Two passes by four-byte blocks whose times lie on both sides of two full seconds, and between them
two by single bytes that took equally long.
-/
def uneven : List TimedPass :=
  [⟨{ blockSize := .four }, ⟨1999999999, by decide⟩⟩, ⟨{ blockSize := .one }, ⟨7, by decide⟩⟩,
    ⟨{ blockSize := .one }, ⟨7, by decide⟩⟩, ⟨{ blockSize := .four }, ⟨2000000000, by decide⟩⟩]

theorem recordAll_average_uneven :
    ∃ timings slow quick, Timings.recordAll {} uneven = .ok timings ∧
      (.four, slow) ∈ timings.rows ∧ (.one, quick) ∈ timings.rows ∧
      slow.average.nanos = 1999999999 ∧ slow.total.nanos < 2 * (slow.average.nanos + 1) ∧
      slow.average ≠ slow.slowest.elapsed ∧ quick.average = quick.slowest.elapsed := by
  have hfits : ∀ size, totalTime (passesAt size uneven) ≤ Duration.limit := by decide
  have hrun : Timings.recordAll {} uneven = .ok
      { rows := [
          (.four, ⟨2, ⟨3999999999, by decide⟩, ⟨1, ⟨1999999999, by decide⟩⟩,
            ⟨2, ⟨2000000000, by decide⟩⟩, 0, 0⟩),
          (.one, ⟨2, ⟨14, by decide⟩, ⟨1, ⟨7, by decide⟩⟩, ⟨1, ⟨7, by decide⟩⟩, 0, 0⟩)] } := by
    decide +kernel
  obtain ⟨timings, hagain, hrows⟩ := recordAll_average hfits
  obtain rfl := Except.ok.inj (hrun.symm.trans hagain)
  obtain ⟨-, -, hround, -, -, huneven⟩ := hrows .four _ List.mem_cons_self
  obtain ⟨-, -, -, -, -, heven⟩ := hrows .one _ (List.mem_cons_of_mem _ List.mem_cons_self)
  refine ⟨_, _, _, hrun, List.mem_cons_self, List.mem_cons_of_mem _ List.mem_cons_self, rfl, hround,
    fun heq => ?_, heven.mpr (by decide)⟩
  exact absurd (huneven.mp heq) (by decide)

end Compaction

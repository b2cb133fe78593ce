import Compaction.Proofs.Overflow
import Mathlib.Algebra.Order.BigOperators.Group.List
import Mathlib.Algebra.Order.Group.Nat

/-!
# Counters in words

The numbers of a series have no bound, while a machine counts passes in words of 32 bits and bytes
in words of 64. They are the number of passes at one block size, the number of one of these passes,
and the sums of their bytes. So a series is `InWords` just when there are fewer than 2^32 passes and
the sums stay below 2^64.

All of this gets less when passes are left out. If the passes of a history can be counted, then so
can those of any part of it, at any block size, and no number leaves its word on the way.
-/

namespace Compaction

/-- Passes can be counted in a word of 32 bits and their bytes in words of 64. -/
structure Countable (passes : List TimedPass) : Prop where
  length : passes.length < UInt32.size
  movedBytes : (passes.map fun pass => pass.report.movedBytes).sum < UInt64.size
  freedBytes : (passes.map fun pass => pass.report.freedBytes).sum < UInt64.size

/-- The numbers of the series fit into the words that a machine keeps them in. -/
structure Series.InWords (series : Series) : Prop where
  passes : series.passes < UInt32.size
  fastest : series.fastest.index < UInt32.size
  slowest : series.slowest.index < UInt32.size
  movedBytes : series.movedBytes < UInt64.size
  freedBytes : series.freedBytes < UInt64.size

/-! ## Parts of a history -/

variable {passes part history : List TimedPass} {pass : TimedPass} {timings : Timings}

theorem Countable.sublist (h : Countable passes) (hpart : part.Sublist passes) :
    Countable part where
  length := Nat.lt_of_le_of_lt hpart.length_le h.length
  movedBytes := by
    have hle := (hpart.map fun pass => pass.report.movedBytes).sum_le_sum fun _ _ => Nat.zero_le _
    exact Nat.lt_of_le_of_lt hle h.movedBytes
  freedBytes := by
    have hle := (hpart.map fun pass => pass.report.freedBytes).sum_le_sum fun _ _ => Nat.zero_le _
    exact Nat.lt_of_le_of_lt hle h.freedBytes

/-- The bytes of each pass are a word of their own. -/
theorem Countable.bytes_lt (h : Countable passes) (hpass : pass ∈ passes) :
    pass.report.movedBytes < UInt64.size ∧ pass.report.freedBytes < UInt64.size := by
  have hone := h.sublist (List.singleton_sublist.mpr hpass)
  exact ⟨hone.movedBytes, hone.freedBytes⟩

/-! ## Rows -/

/-- A lap that leads has the number of one of the times. -/
theorem Lap.Leads.index_le {beats : Duration → Duration → Prop} {times : List Duration} {lap : Lap}
    (h : lap.Leads beats times) : lap.index ≤ times.length := by
  have hlt : times.idxOf lap.elapsed < times.length := List.idxOf_lt_length_of_mem h.mem
  rw [h.index]
  omega

/-- **A series is in words just when its passes can be counted.** -/
theorem Series.Summarizes.inWords_iff {series : Series} (h : series.Summarizes passes) :
    series.InWords ↔ Countable passes := by
  constructor
  · intro hwords
    refine ⟨?_, ?_, ?_⟩
    · rw [← h.length]
      exact hwords.passes
    · rw [← h.movedBytes]
      exact hwords.movedBytes
    · rw [← h.freedBytes]
      exact hwords.freedBytes
  · intro hcount
    have hfastest := h.fastest.index_le
    have hslowest := h.slowest.index_le
    rw [List.length_map] at hfastest hslowest
    refine ⟨?_, ?_, ?_, ?_, ?_⟩
    · rw [h.length]
      exact hcount.length
    · exact Nat.lt_of_le_of_lt hfastest hcount.length
    · exact Nat.lt_of_le_of_lt hslowest hcount.length
    · rw [h.movedBytes]
      exact hcount.movedBytes
    · rw [h.freedBytes]
      exact hcount.freedBytes

namespace Timings

theorem Groups.inWords (h : Groups history timings) (hcount : Countable history) :
    ∀ row ∈ timings.rows, row.2.InWords := by
  intro row hrow
  exact (h.series row hrow).inWords_iff.mpr (hcount.sublist List.filter_sublist)

theorem Groups.passes_lt (h : Groups history timings) (hcount : Countable history)
    (size : BlockSize) : timings.passes size < UInt32.size := by
  rw [h.passes_eq]
  exact (hcount.sublist List.filter_sublist).length

/-- The first part of a history that can be recorded can be recorded. -/
theorem exists_recordAll_take (h : recordAll {} history = .ok timings) (count : Nat) :
    ∃ middle, recordAll {} (history.take count) = .ok middle := by
  refine exists_recordAll_eq_ok_iff.mpr fun size => ?_
  have hwhole := (groups_of_recordAll h).fits size
  rw [← List.take_append_drop count history, passesAt_append, totalTime_append] at hwhole
  omega

/--
**No counter leaves its word.**

Let there be fewer than 2^32 passes in a history, let the bytes they moved be fewer than 2^64
together, and those they freed too, and let the history be recorded. Then after any number of its
passes there are timings whose rows are all in words, and so is what the next pass adds to one.
-/
theorem recordAll_inWords (hcount : Countable history) (hrun : recordAll {} history = .ok timings) :
    (∀ count, ∃ middle, recordAll {} (history.take count) = .ok middle ∧
      (∀ row ∈ middle.rows, row.2.InWords) ∧ ∀ size, middle.passes size < UInt32.size) ∧
      ∀ pass ∈ history,
        pass.report.movedBytes < UInt64.size ∧ pass.report.freedBytes < UInt64.size := by
  refine ⟨fun count => ?_, fun pass hpass => hcount.bytes_lt hpass⟩
  obtain ⟨middle, hmiddle⟩ := exists_recordAll_take hrun count
  have hgroups := groups_of_recordAll hmiddle
  have htake := hcount.sublist (List.take_sublist count history)
  exact ⟨middle, hmiddle, hgroups.inWords htake, hgroups.passes_lt htake⟩

end Timings

end Compaction

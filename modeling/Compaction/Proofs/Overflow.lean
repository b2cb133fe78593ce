import Compaction.Proofs.Grouping
import Mathlib.Algebra.BigOperators.Group.List.Basic
import Mathlib.Order.Bounds.Basic

/-!
# When a recording overflows

The total time of a row is a duration, and recording a pass fails where the total would leave the
range of durations. Which pass that is depends on the history: on how long the passes at the same
block size took before, and on nothing else (`Timings.Groups.record_eq_error_iff`).

A run of passes stops at the first one that fails. That is the first pass with which the time at its
own block size becomes too long, so the whole history can be recorded just when at each block size
all passes together fit. This last condition does not mention the order of the passes.
-/

namespace Compaction

/-! ## One pass -/

theorem Series.record_eq_error_iff {series : Series} {report : Report} {elapsed : Duration} :
    series.record report elapsed = .error {} ↔
      Duration.limit < series.total.nanos + elapsed.nanos := by
  rw [← Duration.add_eq_error_iff, Series.record]
  cases series.total.add elapsed with
  | error overflow => exact iff_of_true rfl rfl
  | ok total => simp

namespace Timings

variable {history rest : List TimedPass} {timings next last : Timings} {pass : TimedPass}

/-- What has been recorded fits. -/
theorem Groups.fits (h : Groups history timings) (size : BlockSize) :
    totalTime (passesAt size history) ≤ Duration.limit := by
  by_cases hnone : passesAt size history = []
  · rw [hnone]
    exact Nat.zero_le _
  · obtain ⟨series, -, -, hsummary⟩ := h.exists_series hnone
    rw [← hsummary.total]
    exact series.total.nanos_le

theorem Groups.record_eq_error (h : Groups history timings)
    (hover : Duration.limit < totalTime (passesAt pass.report.blockSize (history ++ [pass]))) :
    timings.record pass.report pass.elapsed = .error {} := by
  rw [passesAt_concat_self, totalTime_append] at hover
  have hlast : totalTime [pass] = pass.elapsed.nanos := rfl
  have hseen : pass.report.blockSize ∈ sizesOf history := by
    refine mem_sizesOf.mpr fun hnone => ?_
    -- a pass on its own takes no longer than a duration can say
    have hfits := pass.elapsed.nanos_le
    rw [hnone, hlast] at hover
    have hzero : totalTime [] = 0 := rfl
    omega
  obtain ⟨before, series, after, hrows, hbefore, -⟩ := h.exists_row hseen
  have hseries := h.series (pass.report.blockSize, series) (by rw [hrows]; simp)
  have hfull : series.record pass.report pass.elapsed = .error {} := by
    rw [Series.record_eq_error_iff, hseries.total, ← hlast]
    exact hover
  rw [Timings.record, hrows, recordRow_of_seen hbefore, hfull]
  rfl

/-- **A pass fails just when the time at its own block size becomes too long.** -/
theorem Groups.record_eq_error_iff (h : Groups history timings) :
    timings.record pass.report pass.elapsed = .error {} ↔
      Duration.limit < totalTime (passesAt pass.report.blockSize (history ++ [pass])) := by
  refine ⟨fun hfail => ?_, h.record_eq_error⟩
  by_contra hfits
  obtain ⟨next, hrecord, -⟩ := h.record (Nat.le_of_not_lt hfits)
  rw [hfail] at hrecord
  cases hrecord

theorem Groups.of_record (h : Groups history timings)
    (hrecord : timings.record pass.report pass.elapsed = .ok next) :
    Groups (history ++ [pass]) next := by
  have hfits : totalTime (passesAt pass.report.blockSize (history ++ [pass])) ≤ Duration.limit := by
    by_contra hover
    rw [h.record_eq_error (Nat.lt_of_not_le hover)] at hrecord
    cases hrecord
  obtain ⟨found, hfound, hgroups⟩ := h.record hfits
  rw [hrecord] at hfound
  cases hfound
  exact hgroups

/-! ## Runs -/

theorem recordAll_cons_eq_ok_iff :
    timings.recordAll (pass :: rest) = .ok last ↔
      ∃ next, timings.record pass.report pass.elapsed = .ok next ∧
        next.recordAll rest = .ok last := by
  rw [recordAll]
  cases timings.record pass.report pass.elapsed with
  | error overflow => simp
  | ok next => simp

theorem recordAll_append_of_ok (h : timings.recordAll history = .ok next) :
    timings.recordAll (history ++ rest) = next.recordAll rest := by
  induction history generalizing timings with
  | nil =>
      cases h
      rfl
  | cons pass others ih =>
      obtain ⟨middle, hrecord, hothers⟩ := recordAll_cons_eq_ok_iff.mp h
      rw [List.cons_append, recordAll, hrecord]
      exact ih hothers

theorem recordAll_singleton :
    timings.recordAll [pass] = timings.record pass.report pass.elapsed := by
  rw [recordAll]
  cases timings.record pass.report pass.elapsed <;> rfl

/-- **A run that comes to its end has grouped its passes.** -/
theorem Groups.of_recordAll (h : Groups history timings)
    (hrun : timings.recordAll rest = .ok last) : Groups (history ++ rest) last := by
  induction rest generalizing history timings with
  | nil =>
      cases hrun
      rwa [List.append_nil]
  | cons pass rest ih =>
      obtain ⟨next, hrecord, hothers⟩ := recordAll_cons_eq_ok_iff.mp hrun
      rw [List.append_cons]
      exact ih (h.of_record hrecord) hothers

theorem groups_of_recordAll (hrun : recordAll {} history = .ok timings) : Groups history timings :=
  groups_nil.of_recordAll hrun

/-- A run comes to its end just when at each block size all passes together fit. -/
theorem exists_recordAll_eq_ok_iff :
    (∃ last, recordAll {} history = .ok last) ↔
      ∀ size, totalTime (passesAt size history) ≤ Duration.limit := by
  refine ⟨fun hrun => ?_, fun hfits => ?_⟩
  · obtain ⟨last, hlast⟩ := hrun
    exact (groups_of_recordAll hlast).fits
  · obtain ⟨last, hlast, -⟩ := exists_groups_of_fits hfits
    exact ⟨last, hlast⟩

/-! ## The pass that fails -/

/-- The passes in front of the one with the index can be recorded, and that one cannot. -/
def FailsAt (history : List TimedPass) (index : Nat) : Prop :=
  ∃ timings pass, recordAll {} (history.take index) = .ok timings ∧ history[index]? = some pass ∧
    timings.record pass.report pass.elapsed = .error {}

/-- With the pass with the index, the time at its block size becomes too long. -/
def OverrunsAt (history : List TimedPass) (index : Nat) : Prop :=
  ∃ pass, history[index]? = some pass ∧
    Duration.limit < totalTime (passesAt pass.report.blockSize (history.take (index + 1)))

variable {index : Nat}

theorem take_succ_of_getElem? (h : history[index]? = some pass) :
    history.take (index + 1) = history.take index ++ [pass] := by
  rw [List.take_add_one, h]
  rfl

theorem FailsAt.recordAll_eq (h : FailsAt history index) : recordAll {} history = .error {} := by
  obtain ⟨timings, pass, hfront, hpass, hfail⟩ := h
  have hsplit : history.take index ++ pass :: history.drop (index + 1) = history := by
    rw [List.append_cons, ← take_succ_of_getElem? hpass, List.take_append_drop]
  rw [← hsplit, recordAll_append_of_ok hfront, recordAll, hfail]

theorem FailsAt.concat (h : FailsAt history index) : FailsAt (history ++ [pass]) index := by
  obtain ⟨timings, failed, hfront, hget, hfail⟩ := h
  have hlt : index < history.length := (List.getElem?_eq_some_iff.mp hget).1
  refine ⟨timings, failed, ?_, ?_, hfail⟩
  · rwa [List.take_append_of_le_length hlt.le]
  · rwa [List.getElem?_append_left hlt]

/-- A run that does not come to its end has stopped at some pass. -/
theorem exists_failsAt_of_error (h : recordAll {} history = .error {}) :
    ∃ index, FailsAt history index := by
  induction history using List.reverseRecOn with
  | nil => cases h
  | append_singleton history pass ih =>
      cases hfront : recordAll {} history with
      | error overflow =>
          obtain ⟨index, hindex⟩ := ih hfront
          exact ⟨index, hindex.concat⟩
      | ok timings =>
          -- everything in front was recorded, so it is the last pass that fails
          rw [recordAll_append_of_ok hfront, recordAll_singleton] at h
          refine ⟨history.length, timings, pass, ?_, ?_, h⟩
          · rwa [List.take_left]
          · exact List.getElem?_concat_length

theorem FailsAt.overrunsAt (h : FailsAt history index) : OverrunsAt history index := by
  obtain ⟨timings, pass, hfront, hpass, hfail⟩ := h
  refine ⟨pass, hpass, ?_⟩
  rw [take_succ_of_getElem? hpass]
  exact (groups_of_recordAll hfront).record_eq_error_iff.mp hfail

theorem OverrunsAt.lt_totalTime (h : OverrunsAt history index) :
    ∃ size, Duration.limit < totalTime (passesAt size history) := by
  obtain ⟨pass, -, hover⟩ := h
  refine ⟨pass.report.blockSize, ?_⟩
  rw [← List.take_append_drop (index + 1) history, passesAt_append, totalTime_append]
  omega

theorem OverrunsAt.take {stop : Nat} (h : OverrunsAt history index) (hlt : index < stop) :
    OverrunsAt (history.take stop) index := by
  obtain ⟨pass, hpass, hover⟩ := h
  refine ⟨pass, ?_, ?_⟩
  · rwa [List.getElem?_take_of_lt hlt]
  · rwa [List.take_take, Nat.min_eq_left hlt]

/-- **A run stops at the first pass with which the time at its block size becomes too long.** -/
theorem failsAt_iff_isLeast : FailsAt history index ↔ IsLeast {i | OverrunsAt history i} index := by
  have hleast : ∀ stop, FailsAt history stop → IsLeast {i | OverrunsAt history i} stop := by
    intro stop hstop
    refine ⟨hstop.overrunsAt, fun earlier hearlier => ?_⟩
    -- an earlier pass would have made the part that was recorded too long
    by_contra hlt
    obtain ⟨timings, -, hfront, -⟩ := hstop
    obtain ⟨size, hover⟩ := (OverrunsAt.take hearlier (Nat.lt_of_not_le hlt)).lt_totalTime
    exact absurd ((groups_of_recordAll hfront).fits size) (Nat.not_le_of_lt hover)
  refine ⟨hleast index, fun hindex => ?_⟩
  cases hrun : recordAll {} history with
  | ok last =>
      obtain ⟨size, hover⟩ := OverrunsAt.lt_totalTime hindex.1
      exact absurd ((groups_of_recordAll hrun).fits size) (Nat.not_le_of_lt hover)
  | error overflow =>
      obtain ⟨stop, hstop⟩ := exists_failsAt_of_error hrun
      rwa [hindex.unique (hleast stop hstop)]

end Timings

theorem totalTime_perm {first second : List TimedPass} (h : first.Perm second) :
    totalTime first = totalTime second :=
  (h.map _).sum_eq

/--
**A recording overflows just when the time at one block size does.**

The passes of a history can all be recorded if and only if at each block size they take no longer
together than a duration can say. Otherwise the run stops at the first pass with which the passes at
its own block size, up to and including it, take longer than that.

The times of passes at other block sizes have no part in this. After any two runs in which the
passes at the block size of a next one took equally long together, that next pass fails for both or
for neither. And whether a history can be recorded as a whole does not depend on its order.
-/
theorem recordAll_overflow (history : List TimedPass) :
    ((∃ timings, Timings.recordAll {} history = .ok timings) ↔
        ∀ size, totalTime (passesAt size history) ≤ Duration.limit) ∧
      (Timings.recordAll {} history = .error {} ↔ ∃ index, Timings.FailsAt history index) ∧
      (∀ index, Timings.FailsAt history index ↔
        IsLeast {i | ∃ pass, history[i]? = some pass ∧ Duration.limit <
          totalTime (passesAt pass.report.blockSize (history.take (i + 1)))} index) ∧
      (∀ timings others otherTimings (pass : TimedPass),
        Timings.recordAll {} history = .ok timings →
        Timings.recordAll {} others = .ok otherTimings →
        totalTime (passesAt pass.report.blockSize history) =
          totalTime (passesAt pass.report.blockSize others) →
        (timings.record pass.report pass.elapsed = .error {} ↔
          otherTimings.record pass.report pass.elapsed = .error {})) ∧
      ∀ reordered : List TimedPass, reordered.Perm history →
        ((∃ timings, Timings.recordAll {} reordered = .ok timings) ↔
          ∃ timings, Timings.recordAll {} history = .ok timings) := by
  refine ⟨Timings.exists_recordAll_eq_ok_iff, ⟨Timings.exists_failsAt_of_error, fun hstop => ?_⟩,
    fun index => Timings.failsAt_iff_isLeast,
    fun timings others otherTimings pass hrun hother hsame => ?_, fun reordered hperm => ?_⟩
  · obtain ⟨index, hindex⟩ := hstop
    exact hindex.recordAll_eq
  · rw [(Timings.groups_of_recordAll hrun).record_eq_error_iff,
      (Timings.groups_of_recordAll hother).record_eq_error_iff, passesAt_concat_self,
      passesAt_concat_self, totalTime_append, totalTime_append, hsame]
  · have hsame : ∀ size, totalTime (passesAt size reordered) = totalTime (passesAt size history) :=
      fun size => totalTime_perm (hperm.filter _)
    rw [Timings.exists_recordAll_eq_ok_iff, Timings.exists_recordAll_eq_ok_iff]
    simp only [hsame]

/-- At two block sizes as much time as a duration can say, at one of them in two passes. -/
def brimming : List TimedPass :=
  [⟨{ blockSize := .one }, ⟨Duration.limit - 2, Nat.sub_le _ _⟩⟩,
    ⟨{ blockSize := .two }, ⟨Duration.limit, Nat.le_refl _⟩⟩,
    ⟨{ blockSize := .one }, ⟨2, by decide⟩⟩]

/-- A pass of two nanoseconds. -/
def oneMore : TimedPass := ⟨{ blockSize := .one }, ⟨2, by decide⟩⟩

theorem recordAll_overflow_brimming :
    (∃ timings, Timings.recordAll {} brimming = .ok timings) ∧
      Timings.recordAll {} (brimming ++ [oneMore]) = .error {} ∧
      IsLeast {i | ∃ pass, (brimming ++ [oneMore])[i]? = some pass ∧ Duration.limit <
        totalTime (passesAt pass.report.blockSize ((brimming ++ [oneMore]).take (i + 1)))} 3 ∧
      (¬∃ timings, Timings.recordAll {} (oneMore :: brimming.reverse) = .ok timings) ∧
      ∃ timings, Timings.recordAll {} (passesAt .one brimming) = .ok timings ∧
        timings.record oneMore.report oneMore.elapsed = .error {} := by
  have hfits : ∀ size, totalTime (passesAt size brimming) ≤ Duration.limit := by decide
  obtain ⟨hfitting, -, -, halike, -⟩ := recordAll_overflow brimming
  obtain ⟨-, hstops, hleast, -, hreorder⟩ := recordAll_overflow (brimming ++ [oneMore])
  obtain ⟨timings, hrun⟩ := hfitting.mpr hfits
  obtain ⟨alone, halone⟩ : ∃ timings, Timings.recordAll {} (passesAt .one brimming) = .ok timings :=
    (recordAll_overflow (passesAt .one brimming)).1.mpr (by decide)
  have hfail : timings.record oneMore.report oneMore.elapsed = .error {} :=
    (Timings.groups_of_recordAll hrun).record_eq_error (by decide)
  have hstop : Timings.FailsAt (brimming ++ [oneMore]) 3 := ⟨timings, oneMore, hrun, rfl, hfail⟩
  have herror := hstops.mpr ⟨3, hstop⟩
  refine ⟨⟨timings, hrun⟩, herror, (hleast 3).mp hstop, fun hok => ?_, alone, halone, ?_⟩
  · have hperm : (oneMore :: brimming.reverse).Perm (brimming ++ [oneMore]) :=
      ((List.reverse_perm brimming).cons oneMore).trans
        (List.perm_append_singleton oneMore brimming).symm
    obtain ⟨last, hlast⟩ := (hreorder _ hperm).mp hok
    rw [herror] at hlast
    cases hlast
  · exact (halike timings _ alone oneMore hrun halone (by decide)).mp hfail

end Compaction

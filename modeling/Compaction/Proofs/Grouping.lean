import Compaction.Proofs.Summary
import Mathlib.Data.List.Induction
import Mathlib.Data.List.Nodup

/-!
# Timings group their history by block size

Recording a pass touches one row of the timings. `Timings.recordRow_of_seen` and
`Timings.recordRow_of_new` say which: the row of its block size, wherever that stands, or a row that
is put behind the others. What a whole run of passes leaves behind is an invariant of this step,
`Timings.Groups`. There is a row for each block size that occurs in the history, in the order of
first occurrence, and the series of a row summarizes the passes of the history at its block size.

A row depends on the passes at its block size alone, so it makes no difference how passes at
different block sizes were interleaved.
-/

namespace Compaction

/-- The passes of a history at one block size, in the order they were recorded. -/
def passesAt (size : BlockSize) (history : List TimedPass) : List TimedPass :=
  history.filter fun pass => pass.report.blockSize = size

/-- The block sizes of a history in the order of their first occurrences. -/
def sizesOf (history : List TimedPass) : List BlockSize :=
  (history.map fun pass => pass.report.blockSize).eraseDups

/-! ## Histories -/

section History

variable {history : List TimedPass} {pass : TimedPass} {size : BlockSize}

theorem mem_passesAt :
    pass ∈ passesAt size history ↔ pass ∈ history ∧ pass.report.blockSize = size := by
  rw [passesAt, List.mem_filter, decide_eq_true_eq]

theorem passesAt_append (first second : List TimedPass) :
    passesAt size (first ++ second) = passesAt size first ++ passesAt size second :=
  List.filter_append first second

theorem passesAt_concat_self :
    passesAt pass.report.blockSize (history ++ [pass]) =
      passesAt pass.report.blockSize history ++ [pass] := by
  rw [passesAt_append]
  simp [passesAt]

theorem passesAt_concat_of_ne (h : pass.report.blockSize ≠ size) :
    passesAt size (history ++ [pass]) = passesAt size history := by
  rw [passesAt_append]
  simp [passesAt, h]

theorem mem_sizesOf : size ∈ sizesOf history ↔ passesAt size history ≠ [] := by
  rw [sizesOf, List.mem_eraseDups, List.mem_map, passesAt, ne_eq, List.filter_eq_nil_iff]
  simp

/-- A block size that has not occurred before comes last. -/
theorem sizesOf_concat :
    sizesOf (history ++ [pass]) =
      if pass.report.blockSize ∈ sizesOf history then sizesOf history
      else sizesOf history ++ [pass.report.blockSize] := by
  simp only [sizesOf, List.map_append, List.map_singleton, List.mem_eraseDups]
  generalize history.map (fun pass => pass.report.blockSize) = sizes
  by_cases hseen : pass.report.blockSize ∈ sizes <;>
    simp [List.eraseDups_append, List.eraseDups_cons, List.removeAll, hseen]

theorem nodup_sizesOf (history : List TimedPass) : (sizesOf history).Nodup := by
  induction history using List.reverseRecOn with
  | nil => exact List.nodup_nil
  | append_singleton history pass ih =>
      rw [sizesOf_concat]
      split
      · exact ih
      · rename_i hnew
        rw [← List.concat_eq_append]
        exact ih.concat hnew

end History

/-! ## One pass -/

namespace Timings

variable {report : Report} {elapsed : Duration}

theorem recordRow_of_new {rows : List (BlockSize × Series)}
    (h : report.blockSize ∉ rows.map Prod.fst) :
    recordRow report elapsed rows = .ok (rows ++ [(report.blockSize, .single report elapsed)]) := by
  induction rows with
  | nil => rfl
  | cons row rest ih =>
      obtain ⟨size, series⟩ := row
      obtain ⟨hne, hrest⟩ := not_or.mp (List.mem_cons.not.mp h)
      rw [recordRow, if_neg (Ne.symm hne), ih hrest]
      rfl

theorem recordRow_of_seen {before after : List (BlockSize × Series)} {series : Series}
    (h : report.blockSize ∉ before.map Prod.fst) :
    recordRow report elapsed (before ++ (report.blockSize, series) :: after) =
      (series.record report elapsed).map fun next =>
        before ++ (report.blockSize, next) :: after := by
  induction before with
  | nil =>
      rw [List.nil_append, recordRow, if_pos rfl]
      cases series.record report elapsed <;> rfl
  | cons row rest ih =>
      obtain ⟨size, first⟩ := row
      obtain ⟨hne, hrest⟩ := not_or.mp (List.mem_cons.not.mp h)
      rw [List.cons_append, recordRow, if_neg (Ne.symm hne), ih hrest]
      cases series.record report elapsed <;> rfl

/-! ## Runs -/

/-- The timings after some more passes, recorded one after the other. -/
def recordAll (timings : Timings) : List TimedPass → Except DurationOverflow Timings
  | [] => .ok timings
  | pass :: rest =>
    match timings.record pass.report pass.elapsed with
    | .ok next => next.recordAll rest
    | .error overflow => .error overflow

/-- The timings hold the passes of a history, grouped by block size. -/
structure Groups (history : List TimedPass) (timings : Timings) : Prop where
  sizes : timings.rows.map Prod.fst = sizesOf history
  series : ∀ row ∈ timings.rows, row.2.Summarizes (passesAt row.1 history)

variable {history : List TimedPass} {timings other : Timings} {pass : TimedPass}
  {size : BlockSize}

theorem groups_nil : Groups [] {} where
  sizes := rfl
  series := fun _ hrow => nomatch hrow

theorem Groups.nodup_keys (h : Groups history timings) : (timings.rows.map Prod.fst).Nodup :=
  h.sizes ▸ nodup_sizesOf history

/-- There is one row for each block size that occurs. -/
theorem Groups.exists_row (h : Groups history timings) (hseen : size ∈ sizesOf history) :
    ∃ before series after, timings.rows = before ++ (size, series) :: after ∧
      size ∉ before.map Prod.fst ∧ size ∉ after.map Prod.fst := by
  obtain ⟨⟨key, series⟩, hrow, hkey⟩ := List.mem_map.mp (h.sizes ▸ hseen)
  obtain rfl : key = size := hkey
  obtain ⟨before, after, hrows⟩ := List.append_of_mem hrow
  have hnodup := h.nodup_keys
  rw [hrows, List.map_append, List.map_cons, List.nodup_middle, List.nodup_cons, List.mem_append,
    not_or] at hnodup
  exact ⟨before, series, after, hrows, hnodup.1⟩

/-- A pass says nothing about the rows of other block sizes. -/
theorem Groups.summarizes_of_notMem (h : Groups history timings)
    {others : List (BlockSize × Series)} (hsub : ∀ row ∈ others, row ∈ timings.rows)
    (hother : pass.report.blockSize ∉ others.map Prod.fst) :
    ∀ row ∈ others, row.2.Summarizes (passesAt row.1 (history ++ [pass])) := by
  intro row hrow
  have hne : pass.report.blockSize ≠ row.1 := by
    intro heq
    rw [heq] at hother
    exact hother (List.mem_map_of_mem hrow)
  rw [passesAt_concat_of_ne hne]
  exact h.series row (hsub row hrow)

theorem Groups.record_new (h : Groups history timings)
    (hnew : pass.report.blockSize ∉ sizesOf history) :
    ∃ next, timings.record pass.report pass.elapsed = .ok next ∧
      Groups (history ++ [pass]) next := by
  have hkey : pass.report.blockSize ∉ timings.rows.map Prod.fst := by rwa [h.sizes]
  rw [Timings.record, recordRow_of_new hkey]
  refine ⟨_, rfl, ?_, ?_⟩
  · rw [sizesOf_concat, if_neg hnew, List.map_append, h.sizes]
    rfl
  · intro row hrow
    rcases List.mem_append.mp hrow with hold | hlast
    · exact h.summarizes_of_notMem (fun _ => id) hkey row hold
    · obtain rfl := List.mem_singleton.mp hlast
      have hnone : passesAt pass.report.blockSize history = [] :=
        not_not.mp (mem_sizesOf.not.mp hnew)
      rw [passesAt_concat_self, hnone]
      exact Series.summarizes_single pass

theorem Groups.record_seen (h : Groups history timings)
    (hseen : pass.report.blockSize ∈ sizesOf history)
    (hfits : totalTime (passesAt pass.report.blockSize (history ++ [pass])) ≤ Duration.limit) :
    ∃ next, timings.record pass.report pass.elapsed = .ok next ∧
      Groups (history ++ [pass]) next := by
  obtain ⟨before, series, after, hrows, hbefore, hafter⟩ := h.exists_row hseen
  have hseries := h.series (pass.report.blockSize, series) (by rw [hrows]; simp)
  rw [passesAt_concat_self] at hfits
  obtain ⟨updated, hrecord, hsummary⟩ := hseries.record hfits
  refine ⟨{ rows := before ++ (pass.report.blockSize, updated) :: after }, ?_, ?_, ?_⟩
  · rw [Timings.record, hrows, recordRow_of_seen hbefore, hrecord]
    rfl
  · rw [sizesOf_concat, if_pos hseen, ← h.sizes, hrows, List.map_append, List.map_append]
    rfl
  · intro row hrow
    -- the rows in front of this one and behind it are those of other block sizes
    rcases List.mem_append.mp hrow with hfront | hrest
    · refine h.summarizes_of_notMem ?_ hbefore row hfront
      intro other hother
      rw [hrows]
      exact List.mem_append_left _ hother
    rcases List.mem_cons.mp hrest with rfl | hback
    · rw [passesAt_concat_self]
      exact hsummary
    · refine h.summarizes_of_notMem ?_ hafter row hback
      intro other hother
      rw [hrows]
      exact List.mem_append_right _ (List.mem_cons_of_mem _ hother)

/-- **One more pass is grouped**, if the passes at its block size do not take too long together. -/
theorem Groups.record (h : Groups history timings)
    (hfits : totalTime (passesAt pass.report.blockSize (history ++ [pass])) ≤ Duration.limit) :
    ∃ next, timings.record pass.report pass.elapsed = .ok next ∧
      Groups (history ++ [pass]) next := by
  by_cases hseen : pass.report.blockSize ∈ sizesOf history
  · exact h.record_seen hseen hfits
  · exact h.record_new hseen

/-- **A run of passes is grouped**, if at no block size they take too long together. -/
theorem Groups.recordAll {rest : List TimedPass} (h : Groups history timings)
    (hfits : ∀ size, totalTime (passesAt size (history ++ rest)) ≤ Duration.limit) :
    ∃ last, timings.recordAll rest = .ok last ∧ Groups (history ++ rest) last := by
  induction rest generalizing history timings with
  | nil => exact ⟨timings, rfl, by rwa [List.append_nil]⟩
  | cons pass rest ih =>
      rw [List.append_cons] at hfits ⊢
      have hpass : totalTime (passesAt pass.report.blockSize (history ++ [pass])) ≤
          Duration.limit := by
        have hsize := hfits pass.report.blockSize
        rw [passesAt_append, totalTime_append] at hsize
        omega
      obtain ⟨next, hrecord, hnext⟩ := h.record hpass
      rw [Timings.recordAll, hrecord]
      exact ih hnext hfits

/-- The run of a whole history. -/
theorem exists_groups_of_fits
    (hfits : ∀ size, totalTime (passesAt size history) ≤ Duration.limit) :
    ∃ last, recordAll {} history = .ok last ∧ Groups history last :=
  groups_nil.recordAll hfits

/-! ## Reading the rows -/

theorem Groups.exists_series (h : Groups history timings) (hsome : passesAt size history ≠ []) :
    ∃ series, timings.series? size = some series ∧ (size, series) ∈ timings.rows ∧
      series.Summarizes (passesAt size history) := by
  obtain ⟨before, series, after, hrows, hbefore, -⟩ := h.exists_row (mem_sizesOf.mpr hsome)
  have hrow : (size, series) ∈ timings.rows := by rw [hrows]; simp
  refine ⟨series, ?_, hrow, h.series _ hrow⟩
  rw [series?, List.lookup_eq_some_iff]
  refine ⟨before, after, hrows, fun row hfront => ?_⟩
  rw [bne_iff_ne]
  exact fun heq => hbefore (heq ▸ List.mem_map_of_mem hfront)

theorem Groups.series?_eq_none (h : Groups history timings) (hnone : passesAt size history = []) :
    timings.series? size = none := by
  rw [series?, List.lookup_eq_none_iff]
  intro row hrow
  rw [bne_iff_ne]
  rintro rfl
  have hkey : row.1 ∈ sizesOf history := h.sizes ▸ List.mem_map_of_mem hrow
  exact mem_sizesOf.mp hkey hnone

theorem Groups.passes_eq (h : Groups history timings) (size : BlockSize) :
    timings.passes size = (passesAt size history).length := by
  rw [passes]
  by_cases hnone : passesAt size history = []
  · rw [h.series?_eq_none hnone, hnone]
    rfl
  · obtain ⟨series, hseries, -, hsummary⟩ := h.exists_series hnone
    rw [hseries]
    exact hsummary.length

theorem Groups.isEmpty_iff (h : Groups history timings) :
    timings.isEmpty = true ↔ history = [] := by
  rw [isEmpty, List.isEmpty_iff, ← List.map_eq_nil_iff (f := Prod.fst), h.sizes]
  refine ⟨fun hnone => ?_, fun hempty => ?_⟩
  · cases history with
    | nil => rfl
    | cons pass rest =>
        have hmem : pass.report.blockSize ∈ sizesOf (pass :: rest) := by simp [sizesOf]
        rw [hnone] at hmem
        cases hmem
  · rw [hempty]
    rfl

/-- The rows are the summaries of the passes at each block size that occurs. -/
theorem Groups.mem_rows_iff (h : Groups history timings) {series : Series} :
    (size, series) ∈ timings.rows ↔
      passesAt size history ≠ [] ∧ series.Summarizes (passesAt size history) := by
  refine ⟨fun hrow => ⟨?_, h.series _ hrow⟩, fun hand => ?_⟩
  · have hkey : size ∈ sizesOf history := h.sizes ▸ List.mem_map_of_mem hrow
    exact mem_sizesOf.mp hkey
  · obtain ⟨found, -, hrow, hsummary⟩ := h.exists_series hand.1
    rwa [hand.2.unique hsummary]

/-- **The order in which block sizes were interleaved only shows in the order of the rows.** -/
theorem Groups.perm {regrouped : List TimedPass} (h : Groups history timings)
    (hother : Groups regrouped other)
    (hsame : ∀ size, passesAt size regrouped = passesAt size history) :
    other.rows.Perm timings.rows := by
  refine (List.perm_ext_iff_of_nodup hother.nodup_keys.of_map h.nodup_keys.of_map).mpr ?_
  rintro ⟨size, series⟩
  rw [hother.mem_rows_iff, h.mem_rows_iff, hsame]

end Timings

/--
**Timings are the history grouped by block size.**

Let the passes of a history take no longer together, at each block size, than a duration can say.
Then they can be recorded one after the other. The rows stand for the block sizes that occur, each
once and in the order of first occurrence, and the row of a block size holds the number of the
passes at it, their time, the bytes of their moved blocks and the bytes they freed. The number can
be asked for, at any block size, and the timings are empty if the history is.

Another history that agrees in the passes at each block size leaves the same rows, in some order.
-/
theorem recordAll_groups {history : List TimedPass}
    (hfits : ∀ size, totalTime (passesAt size history) ≤ Duration.limit) :
    ∃ timings, Timings.recordAll {} history = .ok timings ∧
      timings.rows.map Prod.fst = (history.map fun pass => pass.report.blockSize).eraseDups ∧
      (timings.rows.map Prod.fst).Nodup ∧
      (∀ size series, (size, series) ∈ timings.rows →
        series.passes = (passesAt size history).length ∧
        series.total.nanos =
          ((passesAt size history).map fun pass => pass.elapsed.nanos).sum ∧
        series.movedBytes =
          ((passesAt size history).map fun pass => pass.report.movedBlocks * size.bytes).sum ∧
        series.freedBytes =
          ((passesAt size history).map fun pass => pass.report.freedBytes).sum) ∧
      (∀ size, timings.passes size = (passesAt size history).length) ∧
      (timings.isEmpty = true ↔ history = []) ∧
      ∀ regrouped, (∀ size, passesAt size regrouped = passesAt size history) →
        ∃ other, Timings.recordAll {} regrouped = .ok other ∧ other.rows.Perm timings.rows := by
  obtain ⟨timings, hrun, hgroups⟩ := Timings.exists_groups_of_fits hfits
  refine ⟨timings, hrun, hgroups.sizes, hgroups.nodup_keys, fun size series hrow => ?_,
    hgroups.passes_eq, hgroups.isEmpty_iff, fun regrouped hsame => ?_⟩
  · have hsummary := hgroups.series _ hrow
    refine ⟨hsummary.length, hsummary.total, ?_, hsummary.freedBytes⟩
    rw [hsummary.movedBytes]
    refine congrArg List.sum (List.map_congr_left fun pass hpass => ?_)
    rw [Report.movedBytes, (mem_passesAt.mp hpass).2]
  · obtain ⟨other, hother, hregrouped⟩ :=
      Timings.exists_groups_of_fits fun size => (hsame size).symm ▸ hfits size
    exact ⟨other, hother, hgroups.perm hregrouped hsame⟩

/-- Five passes by two-byte blocks, among which two times occur twice, and one by single bytes. -/
def interleaved : List TimedPass :=
  [⟨{ blockSize := .two, movedBlocks := 1, freedBytes := 6 }, ⟨30000, by decide⟩⟩,
    ⟨{ blockSize := .two, movedBlocks := 2, freedBytes := 4 }, ⟨10000, by decide⟩⟩,
    ⟨{ blockSize := .one, movedBlocks := 3, freedBytes := 1 }, ⟨1, by decide⟩⟩,
    ⟨{ blockSize := .two }, ⟨50000, by decide⟩⟩,
    ⟨{ blockSize := .two }, ⟨10000, by decide⟩⟩,
    ⟨{ blockSize := .two }, ⟨50000, by decide⟩⟩]

theorem interleaved_fits (size : BlockSize) :
    totalTime (passesAt size interleaved) ≤ Duration.limit := by
  revert size
  decide

theorem recordAll_groups_interleaved :
    ∃ timings, Timings.recordAll {} interleaved = .ok timings ∧
      timings.rows.map Prod.fst = [.two, .one] ∧
      timings.passes .two = 5 ∧ timings.passes .four = 0 ∧
      ∃ other, Timings.recordAll {} (passesAt .one interleaved ++ passesAt .two interleaved) =
        .ok other ∧ other.rows.Perm timings.rows := by
  obtain ⟨timings, hrun, hkeys, -, -, hpasses, -, hregroup⟩ := recordAll_groups interleaved_fits
  refine ⟨timings, hrun, hkeys, hpasses .two, hpasses .four, hregroup _ fun size => ?_⟩
  cases size <;> rfl

end Compaction

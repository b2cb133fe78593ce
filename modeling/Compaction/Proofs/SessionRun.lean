import Compaction.Proofs.Overflow
import Compaction.Proofs.Preservation
import Compaction.Session

/-!
# What a session comes to

What a step can do to a session is said once, as a relation (`Session.Takes`): it is turned down, or
it sets the block size, edits the memory, packs it, reads a block or records a pass, and all else
stays. In particular a step that is turned down leaves the session as it was. So a run of steps comes
to the same as the run of those of them that were taken, and each of these gets the same answer in
both (`Session.run_taken`).

A run has the report of its last pass, has recorded its passes one after the other, and, if none of
its steps is an edit, has packed its memory by a list of widths. This is what the results about
timings and about lists of widths speak of, and so they hold of sessions.
-/

namespace Compaction

/-- The step was turned down. -/
def Answer.isRefusal : Answer → Bool
  | rejected _ => true
  | overflowed _ => true
  | _ => false

/-- The report of the pass, if the step was one. -/
def Answer.report? : Answer → Option Report
  | packed report => some report
  | _ => none

/-- The step writes to the memory by itself. -/
def Step.isEdit : Step → Bool
  | load _ | write _ _ | extend _ | truncate _ => true
  | pushSlot _ | setSlot _ _ | removeSlot _ => true
  | _ => false

namespace Session

/-- The pass that a step records, if it does. -/
def pass? (session : Session) : Step → Option TimedPass
  | .record elapsed =>
    match session.timings.record session.report elapsed with
    | .ok _ => some ⟨session.report, elapsed⟩
    | .error _ => none
  | _ => none

/-- The width that a step would pack the memory by, if it is a pass. -/
def width? (session : Session) : Step → Option Nat
  | .compact => some session.blockSize.bytes
  | .compactWidth width => some width
  | _ => none

/-! ## One step -/

/-- What a step can do to a session, and what it is answered then. -/
inductive Takes (session : Session) : Step → Session → Answer → Prop where
  | rejected {step : Step} {fault : Fault} :
      session.pass? step = none →
      (∀ width, session.width? step = some width →
        (session.memory.compactWidth width).memory = session.memory) →
      Takes session step session (.rejected fault)
  | configured {width : Nat} {blockSize : BlockSize} :
      BlockSize.ofWidth width = .ok blockSize →
      Takes session (.configure width) { session with blockSize } .done
  | edited {step : Step} {memory : Memory} :
      session.pass? step = none → step.isEdit = true →
      Takes session step { session with memory } .done
  | packed {step : Step} {width : Nat} {report : Report} :
      session.pass? step = none → session.width? step = some width →
      Takes session step
        { session with memory := (session.memory.compactWidth width).memory, report }
        (.packed report)
  | read {step : Step} {reference : Reference} {bytes : List UInt8} :
      session.pass? step = none → session.width? step = none →
      session.memory.block session.blockSize reference = .ok bytes →
      Takes session step session (.block bytes)
  | recorded {elapsed : Duration} {timings : Timings} :
      session.timings.record session.report elapsed = .ok timings →
      Takes session (.record elapsed) { session with timings } (.rows timings.cells)
  | overflowed {elapsed : Duration} {overflow : DurationOverflow} :
      session.timings.record session.report elapsed = .error overflow →
      Takes session (.record elapsed) session (.overflowed overflow)

variable {session next : Session} {step : Step} {steps : List Step} {answer : Answer}

theorem takes_settle {outcome : Outcome} {width : Nat} (hpass : session.pass? step = none)
    (hwidth : session.width? step = some width)
    (hmemory : outcome.memory = (session.memory.compactWidth width).memory)
    (herror : ∀ fault, outcome.result = .error fault → outcome.memory = session.memory) :
    session.Takes step (session.settle outcome).1 (session.settle outcome).2 := by
  rw [settle]
  cases hresult : outcome.result with
  | ok report =>
      rw [hmemory]
      exact .packed hpass hwidth
  | error fault =>
      have hsame := herror fault hresult
      rw [hsame]
      refine .rejected hpass fun other hother => ?_
      rw [hwidth] at hother
      cases hother
      rw [← hmemory, hsame]

theorem takes_readBlock (reference : Reference) (hpass : session.pass? step = none)
    (hwidth : session.width? step = none) :
    session.Takes step session (session.readBlock reference) := by
  rw [readBlock]
  cases hblock : session.memory.block session.blockSize reference with
  | ok bytes => exact .read hpass hwidth hblock
  | error fault =>
      refine .rejected hpass fun width hsome => ?_
      rw [hwidth] at hsome
      cases hsome

/-- A pass by a block size leaves the memory that a pass by its width leaves. -/
theorem memory_compact (size : BlockSize) (memory : Memory) :
    (memory.compact size).memory = (memory.compactWidth size.bytes).memory := by
  by_cases hempty : memory.buffer.size = 0
  · rw [Memory.compact_of_empty hempty, Memory.compactWidth_of_empty hempty]
    rfl
  · rw [Memory.compactWidth_of_supported hempty rfl]

/-- **This is all that a step can do.** -/
theorem takes_step (session : Session) (step : Step) :
    session.Takes step (session.step step).1 (session.step step).2 := by
  cases step with
  | configure width =>
      rw [Session.step]
      cases hsize : BlockSize.ofWidth width with
      | ok size => exact .configured hsize
      | error fault => exact .rejected rfl fun _ hnone => by cases hnone
  | load | write | extend | truncate | pushSlot | setSlot | removeSlot => exact .edited rfl rfl
  | compact =>
      refine takes_settle rfl rfl (memory_compact _ _) fun fault hfault => ?_
      rw [Memory.compact_of_error hfault]
      rfl
  | compactWidth width =>
      refine takes_settle rfl rfl rfl fun fault hfault => ?_
      rw [Memory.compactWidth_of_error hfault]
      rfl
  | block reference => exact takes_readBlock reference rfl rfl
  | blockAt slot => exact takes_readBlock _ rfl rfl
  | record elapsed =>
      rw [Session.step]
      cases hrecord : session.timings.record session.report elapsed with
      | ok timings => exact .recorded hrecord
      | error overflow => exact .overflowed hrecord

/-- **A step that is turned down leaves the session as it was.** -/
theorem Takes.eq_of_refusal (h : session.Takes step next answer) (hrefusal : answer.isRefusal) :
    next = session := by
  cases h with
  | rejected => rfl
  | overflowed => rfl
  | configured | edited | packed | read | recorded => cases hrefusal

theorem Takes.report (h : session.Takes step next answer) :
    next.report = answer.report?.getD session.report := by
  cases h <;> rfl

/-- The pass that a step records is recorded. -/
theorem Takes.recordAll (h : session.Takes step next answer) :
    session.timings.recordAll (session.pass? step).toList = .ok next.timings := by
  cases h with
  | rejected hpass => rw [hpass]; rfl
  | configured => rfl
  | edited hpass => rw [hpass]; rfl
  | packed hpass => rw [hpass]; rfl
  | read hpass => rw [hpass]; rfl
  | @recorded elapsed timings hrecord =>
      have hpass : session.pass? (.record elapsed) = some ⟨session.report, elapsed⟩ := by
        rw [pass?, hrecord]
      rw [hpass, Option.toList_some, Timings.recordAll_singleton, hrecord]
  | @overflowed elapsed overflow herror =>
      have hpass : session.pass? (.record elapsed) = none := by
        rw [pass?, herror]
      rw [hpass]
      rfl

/-- A step that is no edit packs the memory, by its width, or leaves it. -/
theorem Takes.memory (h : session.Takes step next answer) (hedit : step.isEdit = false) :
    next.memory = session.memory.compactAll (session.width? step).toList := by
  cases h with
  | rejected _ hsame =>
      cases hwidth : session.width? step with
      | none => rfl
      | some width => exact (hsame width hwidth).symm
  | configured => rfl
  | edited _ hisEdit =>
      rw [hisEdit] at hedit
      cases hedit
  | packed _ hwidth => rw [hwidth]; rfl
  | read _ hwidth => rw [hwidth]; rfl
  | recorded => rfl
  | overflowed => rfl

/-! ## Runs -/

theorem run_cons (step : Step) (steps : List Step) :
    session.run (step :: steps) =
      (((session.step step).1.run steps).1,
        (session.step step).2 :: ((session.step step).1.run steps).2) := rfl

/-- The session goes on to the last step. -/
theorem length_answers (session : Session) (steps : List Step) :
    (session.run steps).2.length = steps.length := by
  induction steps generalizing session with
  | nil => rfl
  | cons step rest ih => rw [run_cons, List.length_cons, ih, List.length_cons]

/-- The steps of a run that are taken. -/
def taken (session : Session) : List Step → List Step
  | [] => []
  | step :: rest =>
    if (session.step step).2.isRefusal then (session.step step).1.taken rest
    else step :: (session.step step).1.taken rest

/-- **Steps that are turned down might as well not have been asked for.** -/
theorem run_taken (session : Session) (steps : List Step) :
    session.run (session.taken steps) =
      ((session.run steps).1, (session.run steps).2.filter fun answer => !answer.isRefusal) := by
  induction steps generalizing session with
  | nil => rfl
  | cons step rest ih =>
      rw [taken, run_cons]
      cases hrefusal : (session.step step).2.isRefusal with
      | true =>
          -- the rest is run from the session there was before the step
          have hsame := (session.takes_step step).eq_of_refusal hrefusal
          rw [if_pos rfl, List.filter_cons_of_neg (by rw [hrefusal]; simp), hsame]
          exact ih session
      | false =>
          rw [if_neg Bool.false_ne_true, run_cons, ih,
            List.filter_cons_of_pos (by rw [hrefusal]; rfl)]

example : (({} : Session).taken [.configure 3, .configure 2, .block none]).length = 1 := rfl

/-- **A session knows the report of the last pass that succeeded.** -/
theorem report_run (session : Session) (steps : List Step) :
    (session.run steps).1.report =
      ((session.run steps).2.filterMap Answer.report?).getLast?.getD session.report := by
  induction steps generalizing session with
  | nil => rfl
  | cons step rest ih =>
      rw [run_cons, ih, (session.takes_step step).report]
      cases hreport : (session.step step).2.report? with
      | none => rw [List.filterMap_cons_none hreport]; rfl
      | some report => rw [List.filterMap_cons_some hreport, List.getLast?_cons]; rfl

/-- The passes that the steps of a run record. -/
def passes (session : Session) : List Step → List TimedPass
  | [] => []
  | step :: rest => (session.pass? step).toList ++ (session.step step).1.passes rest

/-- **A run records its passes one after the other.** -/
theorem recordAll_run (session : Session) (steps : List Step) :
    session.timings.recordAll (session.passes steps) = .ok (session.run steps).1.timings := by
  induction steps generalizing session with
  | nil => rfl
  | cons step rest ih =>
      have hstep := (session.takes_step step).recordAll
      rw [passes, Timings.recordAll_append_of_ok hstep, ih, run_cons]

/-- The timings of a session that has just begun are those of its passes, grouped by block size. -/
theorem groups_run (h : session.timings = {}) (steps : List Step) :
    Timings.Groups (session.passes steps) (session.run steps).1.timings := by
  have hrun := session.recordAll_run steps
  rw [h] at hrun
  exact Timings.groups_of_recordAll hrun

/-- The widths that the steps of a run pack the memory by. -/
def widths (session : Session) : List Step → List Nat
  | [] => []
  | step :: rest => (session.width? step).toList ++ (session.step step).1.widths rest

/-- **A run without edits packs its memory by a list of widths.** -/
theorem memory_run (session : Session) (h : ∀ step ∈ steps, step.isEdit = false) :
    (session.run steps).1.memory = session.memory.compactAll (session.widths steps) := by
  induction steps generalizing session with
  | nil => rfl
  | cons step rest ih =>
      obtain ⟨hstep, hrest⟩ := List.forall_mem_cons.mp h
      rw [run_cons, widths, Memory.compactAll_append, ← (session.takes_step step).memory hstep]
      exact ih _ hrest

/-- **A run without edits keeps the blocks that slots designate**, once a pass has succeeded. -/
theorem exists_relocates_run {size : BlockSize} (h : ∀ step ∈ steps, step.isEdit = false)
    (hne : session.memory.buffer.size ≠ 0)
    (hsome : session.memory.accepted (session.widths steps) ≠ [])
    (hle : ∀ width ∈ session.memory.accepted (session.widths steps), size.bytes ≤ width) :
    ∃ move, Memory.Relocates size move session.memory (session.run steps).1.memory := by
  rw [session.memory_run h]
  exact Memory.exists_relocates_compactAll hne hsome hle

end Session

end Compaction

import Compaction.Compact
import Compaction.Timings

/-!
# Sessions

A memory that is edited and compacted step by step, with a block size to compact it by and
timings of the passes. A step that meets a fault leaves the session as it was, and the session goes
on.
-/

namespace Compaction

/-- What a session is at between two steps. -/
structure Session where
  blockSize : BlockSize := default
  memory : Memory := {}
  timings : Timings := {}
  /-- The report of the last pass that succeeded; before the first, one of nothing. -/
  report : Report := {}

/-- A step of a session. -/
inductive Step where
  /-- Compact by another block size from now on. -/
  | configure (width : Nat)
  /-- Start over with another memory. -/
  | load (memory : Memory)
  /-- Write bytes over those at an offset. -/
  | write (offset : Nat) (bytes : List UInt8)
  /-- Append bytes to the buffer. -/
  | extend (bytes : List UInt8)
  /-- Cut the buffer to a length, unless it is no longer than that. -/
  | truncate (length : Nat)
  /-- Add a slot behind the others. -/
  | pushSlot (reference : Reference)
  /-- Make a slot hold another reference. -/
  | setSlot (slot : Nat) (reference : Reference)
  /-- Take a slot out; those behind it move up. -/
  | removeSlot (slot : Nat)
  /-- Compact by the block size of the session. -/
  | compact
  /-- Compact by blocks of another width, once. -/
  | compactWidth (width : Nat)
  /-- Read the block a reference designates. -/
  | block (reference : Reference)
  /-- Read the block a slot designates. -/
  | blockAt (slot : Nat)
  /-- Record that the last pass took so long. -/
  | record (elapsed : Duration)

/-- The answer to a step. -/
inductive Answer where
  /-- The step was taken and has nothing to tell. -/
  | done
  /-- The memory was compacted. -/
  | packed (report : Report)
  /-- The bytes of the block that was asked for. -/
  | block (bytes : List UInt8)
  /-- The rows of the timings, cell by cell. -/
  | rows (cells : List (List String))
  /-- The step was turned down. -/
  | rejected (fault : Fault)
  /-- The time could not be recorded. -/
  | overflowed (overflow : DurationOverflow)

namespace Session

/-- The session after a compaction. -/
def settle (session : Session) (outcome : Outcome) : Session × Answer :=
  match outcome.result with
  | .ok report => ({ session with memory := outcome.memory, report }, .packed report)
  | .error fault => ({ session with memory := outcome.memory }, .rejected fault)

/-- The block a reference designates, as an answer. -/
def readBlock (session : Session) (reference : Reference) : Answer :=
  match session.memory.block session.blockSize reference with
  | .ok bytes => .block bytes
  | .error fault => .rejected fault

/-- The session with another buffer. -/
def withBuffer (session : Session) (edit : Buffer → Buffer) : Session × Answer :=
  ({ session with memory := { session.memory with buffer := edit session.memory.buffer } }, .done)

/-- The session with other slots. -/
def withSlots (session : Session) (edit : Slots → Slots) : Session × Answer :=
  ({ session with memory := { session.memory with slots := edit session.memory.slots } }, .done)

/-- Takes one step. -/
def step (session : Session) : Step → Session × Answer
  | .configure width =>
    match BlockSize.ofWidth width with
    | .ok blockSize => ({ session with blockSize }, .done)
    | .error fault => (session, .rejected fault)
  | .load memory => ({ session with memory }, .done)
  | .write offset bytes => session.withBuffer fun buffer => buffer.overwrite offset bytes
  | .extend bytes => session.withBuffer fun buffer => buffer ++ bytes.toArray
  | .truncate length => session.withBuffer fun buffer => buffer.take length
  | .pushSlot reference => session.withSlots fun slots => slots.push reference
  | .setSlot slot reference => session.withSlots fun slots => slots.setIfInBounds slot reference
  | .removeSlot slot => session.withSlots fun slots => slots.eraseIdxIfInBounds slot
  | .compact => session.settle (session.memory.compact session.blockSize)
  | .compactWidth width => session.settle (session.memory.compactWidth width)
  | .block reference => (session, session.readBlock reference)
  | .blockAt slot => (session, session.readBlock (session.memory.slots.getD slot none))
  | .record elapsed =>
    match session.timings.record session.report elapsed with
    | .ok timings => ({ session with timings }, .rows timings.cells)
    | .error overflow => (session, .overflowed overflow)

/-- Takes steps one after the other, and answers each of them. -/
def run (session : Session) : List Step → Session × List Answer
  | [] => (session, [])
  | step :: rest =>
    let (next, answer) := session.step step
    let (last, answers) := next.run rest
    (last, answer :: answers)

end Session

end Compaction

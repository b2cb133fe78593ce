import Compaction.Proofs.Account

/-!
# What a pass writes down is what it did

The moves of a journal are noted in the middle of a pass, when some slots have been rewritten and
some have not. Read afterwards they are still enough to tell where each reference went, because a
move names its block by the offset it had at the start, and no two live blocks share one: `follow`
looks an offset up among the sources, and what it finds is what packing does to the offset
(`follow_shifts`). That the target of a move may be an offset at which another block lay does no
harm, since targets are never looked up.

What the moves leave out has not changed either. They are the last part of the live blocks, each
written behind the one before it, and the bytes in front of the first target are those of settled
blocks.
-/

namespace Compaction

/-- Where the moves say that the block at an offset went. -/
def follow (moves : List Move) (offset : Nat) : Nat :=
  match moves.find? fun move => move.source = offset with
  | some move => move.target
  | none => offset

/-! ## The moves -/

section Order

variable {size : BlockSize} {live : List Nat}

theorem mem_shifts {move : Move} :
    move ∈ shifts size live ↔
      move.source ∈ live ∧ move.target = packedOffset size live move.source ∧
        move.target ≠ move.source := by
  rw [shifts, List.mem_map]
  refine ⟨fun h => ?_, fun h => ?_⟩
  · obtain ⟨source, hsource, rfl⟩ := h
    obtain ⟨hlive, hmoves⟩ := List.mem_filter.mp hsource
    exact ⟨hlive, rfl, of_decide_eq_true hmoves⟩
  · obtain ⟨hlive, htarget, hmoves⟩ := h
    refine ⟨move.source, List.mem_filter.mpr ⟨hlive, decide_eq_true (htarget ▸ hmoves)⟩, ?_⟩
    rw [← htarget]

/-- **Following the moves is packing.** -/
theorem follow_shifts : follow (shifts size live) = packedOffset size live := by
  funext offset
  rw [follow]
  cases hfind : (shifts size live).find? fun move => move.source = offset with
  | some move =>
      obtain rfl : move.source = offset := by simpa using List.find?_some hfind
      exact (mem_shifts.mp (List.mem_of_find?_eq_some hfind)).2.1
  | none =>
      -- a live block that packing takes elsewhere would have been found
      by_contra hmoves
      have hlive : offset ∈ live := by
        by_contra hfree
        exact hmoves (if_neg hfree).symm
      have hmove : ⟨offset, packedOffset size live offset⟩ ∈ shifts size live :=
        mem_shifts.mpr ⟨hlive, rfl, Ne.symm hmoves⟩
      exact List.find?_eq_none.mp hfind _ hmove (decide_eq_true rfl)

theorem Ascending.pairwise_shifts (h : Ascending size live) :
    (shifts size live).Pairwise fun move next => move.source < next.source :=
  List.pairwise_map.mpr (h.ordered.sublist List.filter_sublist)

/-- Each block is written behind the one before it. -/
theorem Ascending.isChain_shifts (h : Ascending size live) :
    (shifts size live).IsChain fun move next => next.target = move.target + size.bytes := by
  rw [h.shifts_eq_map_drop, List.isChain_iff_getElem]
  intro index hlt
  rw [List.length_map, List.length_drop] at hlt
  have hplace : ∀ (turn : Nat) (hturn : turn < live.length),
      packedOffset size live live[turn] = turn * size.bytes :=
    fun turn hturn => h.packedOffset_getElem (List.getElem?_eq_getElem hturn)
  simp only [List.getElem_map, List.getElem_drop]
  rw [hplace _ (by omega), hplace _ (by omega), ← Nat.add_assoc, Nat.succ_mul]

/-- The first block is written where the settled ones end. -/
theorem Ascending.target_head_shifts (h : Ascending size live) :
    ((shifts size live).head?.map Move.target).getD (live.length * size.bytes) =
      settled size live * size.bytes := by
  rw [h.shifts_eq_map_drop, List.head?_map, List.head?_drop]
  cases hget : live[settled size live]? with
  | none =>
      have hle := List.getElem?_eq_none_iff.mp hget
      rw [Nat.le_antisymm settled_le_length hle]
      rfl
  | some source => exact h.packedOffset_getElem hget

theorem Ascending.take_settled (h : Ascending size live) :
    live.take (settled size live) = (List.range (settled size live)).map (· * size.bytes) := by
  calc live.take (settled size live)
    _ = (live.take (settled size live)).map (packedOffset size live) := by
        rw [List.map_congr_left fun offset ho => packedOffset_eq_of_mem_take ho, List.map_id']
    _ = ((List.range live.length).map (· * size.bytes)).take (settled size live) := by
        rw [List.map_take, h.map_packedOffset]
    _ = (List.range (settled size live)).map (· * size.bytes) := by
        rw [← List.map_take, List.take_range, Nat.min_eq_left settled_le_length]

end Order

namespace Memory

variable {size : BlockSize} {memory : Memory}

/-- **The bytes of the settled blocks stay.** -/
theorem Valid.getElem?_buffer_gathered_of_lt (h : memory.Valid size) {place : Nat}
    (hlt : place < settled size memory.slots.live * size.bytes) :
    (memory.gathered size).buffer[place]? = memory.buffer[place]? := by
  have hroom : settled size memory.slots.live * size.bytes ≤ memory.buffer.size :=
    Nat.le_trans (Nat.mul_le_mul_right _ settled_le_length) h.length_live_mul_le
  have hblocks : memory.buffer.blocks size memory.slots.live =
      memory.buffer.toList.take (settled size memory.slots.live * size.bytes) ++
        memory.buffer.blocks size
          (memory.slots.live.drop (settled size memory.slots.live)) := by
    rw [← Buffer.blocks_range, ← h.ascending.take_settled, ← Buffer.blocks_append,
      List.take_append_drop]
  have hfront : place < (memory.buffer.toList.take
      (settled size memory.slots.live * size.bytes)).length := by
    rw [List.length_take, Array.length_toList]
    omega
  rw [Memory.gathered, hblocks, List.getElem?_toArray, List.append_assoc,
    List.getElem?_append_left hfront, List.getElem?_take_of_lt hlt, Array.getElem?_toList]

theorem slots_gathered_eq_map_follow :
    (memory.gathered size).slots =
      memory.slots.map (Option.map (follow (shifts size memory.slots.live))) := by
  rw [follow_shifts, gathered]

/-- A move keeps to the buffer, ends before it starts, and takes the block's bytes along. -/
theorem Valid.move_of_mem_shifts (h : memory.Valid size) {move : Move}
    (hmove : move ∈ shifts size memory.slots.live) :
    move.target + size.bytes ≤ move.source ∧ move.source + size.bytes ≤ memory.buffer.size ∧
      (memory.gathered size).buffer.slice move.target size.bytes =
        memory.buffer.slice move.source size.bytes := by
  obtain ⟨hlive, htarget, hmoves⟩ := mem_shifts.mp hmove
  have hle : move.target ≤ move.source := htarget ▸ h.ascending.packedOffset_le move.source
  have haligned : size.Aligned move.target := htarget ▸ aligned_packedOffset hlive
  refine ⟨?_, (h.hasBlock_live hlive).inside, ?_⟩
  · exact haligned.add_bytes_le (h.ascending.aligned _ hlive) (Nat.lt_of_le_of_ne hle hmoves)
  · rw [htarget]
    exact h.slice_gathered hlive

end Memory

/--
**The log of a pass is a faithful journal of it.**

Suppose a pass over a buffer that is not empty succeeds. Its log is one trace record for each of
some moves, as many as the report counts, and behind them one debug record. The moves are ascending
in where they read from, each writes behind the one before it, and none overlaps what it reads.
Every moved block ends up with the bytes that lay at its source before the pass, and the bytes in
front of the first target are as they were; where nothing moved, all the live bytes are. The slots
hold what following the moves makes of the references they held.

A pass that is turned down logs nothing, and neither does one over an empty buffer.
-/
theorem compact_journal_faithful (size : BlockSize) (memory : Memory) :
    (∀ report, memory.buffer.size ≠ 0 → (memory.compact size).result = .ok report →
      ∃ moves : List Move,
        (memory.compact size).journal.map Event.entry =
          moves.map (fun move =>
            { level := .trace, text := s!"moved block {move.source} -> {move.target}" }) ++
          [{ level := .debug
             text :=
               s!"compacted {memory.buffer.size} bytes ({size.label} blocks): " ++
                 s!"{report.liveBlocks} live, {report.movedBlocks} moved, " ++
                 s!"{report.freedBytes} bytes freed" }] ∧
        moves.length = report.movedBlocks ∧
        moves.Pairwise (fun move next => move.source < next.source) ∧
        moves.IsChain (fun move next => next.target = move.target + size.bytes) ∧
        (∀ move ∈ moves, move.target + size.bytes ≤ move.source ∧
          move.source + size.bytes ≤ memory.buffer.size ∧
          (memory.compact size).memory.buffer.slice move.target size.bytes =
            memory.buffer.slice move.source size.bytes) ∧
        (∀ place < (moves.head?.map Move.target).getD report.liveBytes,
          (memory.compact size).memory.buffer[place]? = memory.buffer[place]?) ∧
        (memory.compact size).memory.slots = memory.slots.map (Option.map (follow moves))) ∧
      (∀ fault, (memory.compact size).result = .error fault →
        (memory.compact size).journal = []) ∧
      (memory.buffer.size = 0 → (memory.compact size).journal = []) := by
  refine ⟨fun report hne hok => ?_, fun fault herror => ?_, fun hempty => ?_⟩
  · obtain ⟨hvalid, rfl, -⟩ := Memory.compact_of_ok hne hok
    have hascending := hvalid.ascending
    rw [Memory.compact_of_valid_eq hvalid]
    refine ⟨shifts size memory.slots.live, ?_, rfl, hascending.pairwise_shifts,
      hascending.isChain_shifts, fun move => hvalid.move_of_mem_shifts, fun place hlt => ?_,
      Memory.slots_gathered_eq_map_follow⟩
    · rw [List.map_append, List.map_map]
      rfl
    · refine hvalid.getElem?_buffer_gathered_of_lt ?_
      rw [← hascending.target_head_shifts]
      exact hlt
  · rw [Memory.compact_of_error herror]
    rfl
  · rw [Memory.compact_of_empty hempty]
    rfl

theorem compact_journal_faithful_chain :
    ∃ moves : List Move, moves.length = 3 ∧
      (Memory.chain.compact .two).journal.length = 4 ∧
      Memory.chain.slots.map (Option.map (follow moves)) = #[some 4, some 0, some 2, some 4] := by
  have hresult : (Memory.chain.compact .two).result =
      .ok { blockSize := .two, liveBlocks := 3, movedBlocks := 3, liveBytes := 6,
            freedBytes := 4 } := rfl
  obtain ⟨moves, hjournal, hlength, -, -, -, -, hslots⟩ :=
    (compact_journal_faithful .two Memory.chain).1 _ (by decide) hresult
  refine ⟨moves, hlength, ?_, hslots.symm⟩
  have hcount := congrArg List.length hjournal
  rwa [List.length_map, List.length_append, List.length_map, hlength] at hcount

end Compaction

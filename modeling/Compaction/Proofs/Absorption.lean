import Compaction.Proofs.Preservation

/-!
# A pass leaves no trace in a later, narrower one

What a pass makes of a memory depends on the blocks that the slots designate and on the order those
lie in, and on nothing else. An earlier pass by blocks at least as wide changes neither, so a later
pass comes to the same memory with it and without it. That still holds when slots are dropped or
repeated in between: blocks that only the dropped slots designated are gone, and the room they took
up does not show.

The later pass may have less to move, since the earlier one may have taken blocks to their places.
-/

namespace Compaction

/--
The slots at the given positions, one for each position and in that order. Positions at which there
is no slot give none.
-/
def Slots.select (slots : Slots) (positions : List Nat) : Slots :=
  (positions.filterMap fun position => slots[position]?).toArray

theorem Slots.mem_of_mem_select {slots : Slots} {positions : List Nat} {reference : Reference}
    (h : reference ∈ slots.select positions) : reference ∈ slots := by
  rw [select, List.mem_toArray, List.mem_filterMap] at h
  obtain ⟨position, -, hget⟩ := h
  exact Array.mem_of_getElem? hget

theorem Slots.select_map (slots : Slots) (follow : Reference → Reference) (positions : List Nat) :
    select (slots.map follow) positions = (slots.select positions).map follow := by
  have hget : (fun position : Nat => (slots.map follow)[position]?) =
      fun position => slots[position]?.map follow :=
    funext fun _ => Array.getElem?_map
  rw [select, select, hget, ← List.map_filterMap, List.map_toArray]

namespace Memory

/-- The memory with only the slots at the given positions. -/
def select (memory : Memory) (positions : List Nat) : Memory :=
  { memory with slots := memory.slots.select positions }

variable {size : BlockSize} {before after memory : Memory} {move : Nat → Nat}

theorem Valid.select (h : memory.Valid size) (positions : List Nat) :
    (memory.select positions).Valid size :=
  h.of_subset fun _ hr => Slots.mem_of_mem_select hr

namespace Relocates

theorem select (h : Relocates size move before after) (positions : List Nat) :
    Relocates size move (before.select positions) (after.select positions) where
  source := h.source.select positions
  target := h.target.select positions
  length := h.length
  slots := by
    show after.slots.select positions = _
    rw [h.slots, Slots.select_map]
    rfl
  slice := fun offset ho => h.slice offset (Slots.mem_of_mem_select ho)
  le := fun offset ho => h.le offset (Slots.mem_of_mem_select ho)
  order := fun first second hf hs =>
    h.order first second (Slots.mem_of_mem_select hf) (Slots.mem_of_mem_select hs)

/-! ## Packing after a relocation -/

/-- The live blocks are those there were, in the order they were in. -/
theorem live_eq (h : Relocates size move before after) :
    after.slots.live = before.slots.live.map move := by
  refine (Slots.eq_live ?_ ?_).symm
  · refine List.pairwise_map.mpr (before.slots.pairwise_live.imp_of_mem ?_)
    intro first second hf hs hlt
    rw [← Nat.compare_eq_lt, h.order _ _ (Slots.mem_live.mp hf) (Slots.mem_live.mp hs),
      Nat.compare_eq_lt]
    exact hlt
  · intro offset
    rw [List.mem_map, h.slots, Array.mem_map]
    refine ⟨fun hmem => ?_, fun hmem => ?_⟩
    · obtain ⟨old, ho, rfl⟩ := hmem
      exact ⟨some old, Slots.mem_live.mp ho, rfl⟩
    · obtain ⟨reference, hr, heq⟩ := hmem
      obtain ⟨old, rfl, -⟩ := h.source.sound reference hr
      exact ⟨old, Slots.mem_live.mpr hr, Option.some.inj heq⟩

/-- A block is packed to where it would have been packed from its old place. -/
theorem packedOffset_eq (h : Relocates size move before after) {offset : Nat}
    (ho : some offset ∈ before.slots) :
    packedOffset size after.slots.live (move offset) =
      packedOffset size before.slots.live offset := by
  obtain ⟨index, hlt, rfl⟩ := List.getElem_of_mem (Slots.mem_live.mpr ho)
  have hget : before.slots.live[index]? = some before.slots.live[index] :=
    List.getElem?_eq_getElem hlt
  rw [h.source.ascending.packedOffset_getElem hget]
  refine h.target.ascending.packedOffset_getElem ?_
  rw [h.live_eq, List.getElem?_map, hget]
  rfl

/-- **The packed memory is the same.** -/
theorem gathered_eq (h : Relocates size move before after) :
    after.gathered size = before.gathered size := by
  have hlive := h.live_eq
  have hblocks : after.buffer.blocks size after.slots.live =
      before.buffer.blocks size before.slots.live := by
    rw [hlive, Buffer.blocks, Buffer.blocks, List.flatMap_map]
    refine List.flatMap_congr fun offset ho => ?_
    exact h.slice offset (Slots.mem_live.mp ho)
  have hslots : after.slots.map (Option.map (packedOffset size after.slots.live)) =
      before.slots.map (Option.map (packedOffset size before.slots.live)) := by
    calc after.slots.map (Option.map (packedOffset size after.slots.live))
      _ = (before.slots.map (Option.map move)).map
          (Option.map (packedOffset size after.slots.live)) := congrArg (Array.map _) h.slots
      _ = before.slots.map (Option.map (packedOffset size after.slots.live) ∘ Option.map move) :=
          Array.map_map
      _ = before.slots.map (Option.map (packedOffset size before.slots.live)) := by
          refine Array.map_congr_left fun reference hr => ?_
          obtain ⟨offset, rfl, -⟩ := h.source.sound reference hr
          exact congrArg some (h.packedOffset_eq hr)
  rw [gathered, gathered, hblocks, hslots, h.length, hlive, List.length_map]

/-- No block has to be moved that would not have been moved before. -/
theorem length_shifts_le (h : Relocates size move before after) :
    (shifts size after.slots.live).length ≤ (shifts size before.slots.live).length := by
  have hstays : ∀ offset ∈ before.slots.live,
      packedOffset size before.slots.live offset = offset →
        packedOffset size after.slots.live (move offset) = move offset := by
    intro offset ho hplace
    have hle := h.le offset (Slots.mem_live.mp ho)
    have heq := h.packedOffset_eq (Slots.mem_live.mp ho)
    have hfront := h.target.ascending.packedOffset_le (move offset)
    -- `move offset` lies between `offset` and the place the block is packed to, which are the same
    omega
  rw [shifts, shifts, List.length_map, List.length_map, ← List.countP_eq_length_filter,
    ← List.countP_eq_length_filter, h.live_eq, List.countP_map, ← h.live_eq]
  refine List.countP_mono_left fun offset ho hmoves => ?_
  simp only [Function.comp_apply, decide_eq_true_eq] at hmoves ⊢
  exact fun hplace => hmoves (hstays offset ho hplace)

end Relocates

end Memory

/--
**A pass is absorbed by a later one with blocks no wider.**

Suppose a pass over a buffer that is not empty succeeds. Choose any of the slots, in any order and
as often as wanted, and a block size no greater than that of the pass. Then a pass by blocks of this
size over the chosen slots succeeds after the first pass and without it, and comes to the same
memory. The two account for the same blocks and bytes, and after the first pass no more blocks are
moved than without it.
-/
theorem compact_absorbed {size finer : BlockSize} {memory : Memory} {report : Report}
    (hne : memory.buffer.size ≠ 0) (h : (memory.compact size).result = .ok report)
    (hle : finer.bytes ≤ size.bytes) (positions : List Nat) :
    ∃ later direct : Report,
      (((memory.compact size).memory.select positions).compact finer).result = .ok later ∧
      ((memory.select positions).compact finer).result = .ok direct ∧
      (((memory.compact size).memory.select positions).compact finer).memory =
        ((memory.select positions).compact finer).memory ∧
      later.blockSize = direct.blockSize ∧
      later.liveBlocks = direct.liveBlocks ∧
      later.liveBytes = direct.liveBytes ∧
      later.freedBytes = direct.freedBytes ∧
      later.movedBlocks ≤ direct.movedBlocks := by
  obtain ⟨hvalid, -, hafter⟩ := Memory.compact_of_ok hne h
  -- the chosen slots after the first pass are those before it, relocated
  have hmove := (hvalid.relocates.narrow hle).select positions
  have hlength : ((memory.gathered size).select positions).slots.live.length =
      (memory.select positions).slots.live.length := by
    rw [hmove.live_eq, List.length_map]
  rw [hafter, Memory.compact_of_valid_eq hmove.target, Memory.compact_of_valid_eq hmove.source]
  refine ⟨_, _, rfl, rfl, hmove.gathered_eq, rfl, hlength, ?_, ?_, hmove.length_shifts_le⟩
  · exact congrArg (· * finer.bytes) hlength
  · show _ - _ = _ - _
    rw [hlength, hmove.length]

/-- Three live blocks behind a hole. -/
def Memory.behindHole : Memory where
  buffer := #[0, 0, 0, 0, 3, 3, 7, 5, 9, 0, 0, 1, 4, 0, 0, 2]
  slots := #[some 12, some 4, some 8]

theorem compact_absorbed_behindHole :
    (Memory.behindHole.compact .four).result =
        .ok { blockSize := .four, liveBlocks := 3, movedBlocks := 3, liveBytes := 12,
              freedBytes := 4 } ∧
      (((Memory.behindHole.compact .four).memory.select [2, 0, 2]).compact .two).memory =
        ((Memory.behindHole.select [2, 0, 2]).compact .two).memory := by
  have hresult : (Memory.behindHole.compact .four).result =
      .ok { blockSize := .four, liveBlocks := 3, movedBlocks := 3, liveBytes := 12,
            freedBytes := 4 } := rfl
  obtain ⟨later, direct, -, -, hmemory, -⟩ :=
    compact_absorbed (by decide) hresult (by decide : BlockSize.two.bytes ≤ BlockSize.four.bytes)
      [2, 0, 2]
  exact ⟨hresult, hmemory⟩

end Compaction

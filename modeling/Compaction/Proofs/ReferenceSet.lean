import Compaction.Proofs.Absorption

/-!
# Only which references there are matters

Where a block is packed to depends on the live blocks in front of it, and these are a set: it makes
no difference in which slot a reference is held, in how many, or which other slots lie between. Two
memories with one buffer whose slots hold the same references go through the same pass, and one map
of offsets rewrites the slots of both. Slots that change places change places in the outcome, and
nothing else does.

Which slot is at fault does depend on the order, so of a request that is turned down only this much
is the same in both memories.
-/

namespace Compaction

/-- The live blocks of slots that hold the same references are the same. -/
theorem Slots.live_congr {slots other : Slots}
    (h : ∀ reference, reference ∈ slots ↔ reference ∈ other) : slots.live = other.live := by
  refine Slots.eq_live slots.pairwise_live fun offset => ?_
  rw [Slots.mem_live]
  exact h (some offset)

/-- A selection in which every slot is chosen holds all the references there were. -/
theorem Slots.mem_select_iff {slots : Slots} {positions : List Nat}
    (hall : ∀ position < slots.size, position ∈ positions) {reference : Reference} :
    reference ∈ slots.select positions ↔ reference ∈ slots := by
  refine ⟨Slots.mem_of_mem_select, fun hr => ?_⟩
  obtain ⟨position, hlt, rfl⟩ := Array.getElem_of_mem hr
  rw [select, List.mem_toArray, List.mem_filterMap]
  exact ⟨position, hall position hlt, Array.getElem?_eq_getElem hlt⟩

namespace Memory

variable {size : BlockSize} {memory : Memory} {other : Slots} {report : Report}

/-- **The pass over other slots with the same references.** -/
theorem exists_compact_eq_of_same_references (h : (memory.compact size).result = .ok report)
    (hsame : ∀ reference, reference ∈ memory.slots ↔ reference ∈ other) :
    ∃ follow : Nat → Nat,
      (memory.compact size).memory.slots = memory.slots.map (Option.map follow) ∧
      Memory.compact size { memory with slots := other } =
        { memory.compact size with
          memory :=
            { buffer := (memory.compact size).memory.buffer
              slots := other.map (Option.map follow) } } := by
  by_cases hempty : memory.buffer.size = 0
  · -- nothing is looked at, and nothing moves
    have hother : ({ memory with slots := other } : Memory).buffer.size = 0 := hempty
    refine ⟨id, ?_, ?_⟩
    · rw [compact_of_empty hempty, Option.map_id, Array.map_id]
      rfl
    · rw [compact_of_empty hempty, compact_of_empty hother, Option.map_id, Array.map_id]
      rfl
  · have hvalid := valid_of_ok hempty h
    have hother : Valid size { memory with slots := other } :=
      hvalid.of_subset fun reference hr => (hsame reference).mpr hr
    refine ⟨packedOffset size memory.slots.live, ?_, ?_⟩
    · rw [compact_of_valid_eq hvalid]
      rfl
    · rw [compact_of_valid_eq hvalid, compact_of_valid_eq hother]
      simp only [account, gathered, Slots.live_congr hsame]

end Memory

/--
**Only the set of references matters for the placement of blocks.**

Take a memory, and other slots that hold the same references, in any order and as often as wanted.
A pass over the one succeeds if and only if a pass over the other does. Then the reports and the
buffers are the same, and one map of offsets takes the slots of each to what they hold after the
pass. In particular, where slots change places before a pass, they change places in its outcome and
nothing else is different.
-/
theorem compact_same_references {size : BlockSize} {memory : Memory} {other : Slots}
    (hsame : ∀ reference, reference ∈ memory.slots ↔ reference ∈ other) :
    ((∃ report, (memory.compact size).result = .ok report) ↔
        ∃ report, (Memory.compact size { memory with slots := other }).result = .ok report) ∧
      (∀ report, (memory.compact size).result = .ok report →
        (Memory.compact size { memory with slots := other }).result = .ok report ∧
        (Memory.compact size { memory with slots := other }).memory.buffer =
          (memory.compact size).memory.buffer ∧
        ∃ follow : Nat → Nat,
          (memory.compact size).memory.slots = memory.slots.map (Option.map follow) ∧
          (Memory.compact size { memory with slots := other }).memory.slots =
            other.map (Option.map follow)) ∧
      ∀ report, (memory.compact size).result = .ok report →
        ∀ positions : List Nat, positions.Perm (List.range memory.slots.size) →
          (memory.select positions).compact size =
            { memory.compact size with
              memory := (memory.compact size).memory.select positions } := by
  refine ⟨⟨fun hok => ?_, fun hok => ?_⟩, fun report h => ?_, fun report h positions hperm => ?_⟩
  · obtain ⟨report, h⟩ := hok
    obtain ⟨_, -, heq⟩ := Memory.exists_compact_eq_of_same_references h hsame
    exact ⟨report, heq ▸ h⟩
  · obtain ⟨report, h⟩ := hok
    obtain ⟨_, -, heq⟩ := Memory.exists_compact_eq_of_same_references h fun reference =>
      (hsame reference).symm
    exact ⟨report, heq ▸ h⟩
  · obtain ⟨follow, hslots, heq⟩ := Memory.exists_compact_eq_of_same_references h hsame
    rw [heq]
    exact ⟨h, rfl, follow, hslots, rfl⟩
  · -- a selection of all slots, each once, is one more list of the same references
    have hall : ∀ position < memory.slots.size, position ∈ positions := fun position hlt =>
      hperm.mem_iff.mpr (List.mem_range.mpr hlt)
    obtain ⟨follow, hslots, heq⟩ := Memory.exists_compact_eq_of_same_references h
      fun _ => (Slots.mem_select_iff hall).symm
    rw [Memory.select, heq, Memory.select, hslots, Slots.select_map]

theorem compact_same_references_chain :
    (Memory.compact .two { Memory.chain with slots := #[some 4, some 4, some 2, some 8] }).result =
        (Memory.chain.compact .two).result ∧
      (Memory.chain.select [3, 1, 0, 2]).compact .two =
        { Memory.chain.compact .two with
          memory := (Memory.chain.compact .two).memory.select [3, 1, 0, 2] } := by
  have hresult : (Memory.chain.compact .two).result =
      .ok { blockSize := .two, liveBlocks := 3, movedBlocks := 3, liveBytes := 6,
            freedBytes := 4 } := rfl
  have hsame : ∀ reference, reference ∈ Memory.chain.slots ↔
      reference ∈ (#[some 4, some 4, some 2, some 8] : Slots) := by
    intro reference
    simp only [Memory.chain, List.mem_toArray, List.mem_cons, List.not_mem_nil, or_false]
    tauto
  obtain ⟨-, hset, hplaces⟩ := @compact_same_references .two _ _ hsame
  exact ⟨(hset _ hresult).1.trans hresult.symm, hplaces _ hresult [3, 1, 0, 2] (by decide)⟩

end Compaction

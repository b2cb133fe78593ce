import Compaction.Proofs.Absorption

/-!
# Memories that a pass leaves as they are

A pass packs the live blocks into the first places of the buffer. Where they lie there already it
moves nothing, and that is the only case: `Slots.Packed` says so of the slots, without a word about
passes. The slots of a memory that has just been through a pass are of that kind, so a second pass
finds nothing to do.

The bytes tell less than the slots. Blocks may be alike, so a block could move and the buffer still
look as it did. What rules this out is the marker of the last live block: if it lay behind the
packed blocks, where the pass leaves zeros, it would be gone. So the live blocks lie in front of
that place, and there is no room for a hole between them.
-/

namespace Compaction

/-- The slots designate the first `count` blocks of the buffer, each of them, and no others. -/
def Slots.Packed (size : BlockSize) (slots : Slots) (count : Nat) : Prop :=
  ∀ offset, some offset ∈ slots ↔ ∃ index < count, offset = index * size.bytes

/-! ## Blocks that are in their places -/

section Order

variable {size : BlockSize} {live : List Nat}

theorem shifts_eq_nil_iff :
    shifts size live = [] ↔ ∀ offset ∈ live, packedOffset size live offset = offset := by
  rw [shifts, List.map_eq_nil_iff, List.filter_eq_nil_iff]
  simp only [decide_eq_true_eq, ne_eq, not_not]

theorem Ascending.shifts_eq_nil_iff_eq_map (h : Ascending size live) :
    shifts size live = [] ↔ live = (List.range live.length).map (· * size.bytes) := by
  calc shifts size live = []
    _ ↔ live.map (packedOffset size live) = live.map id := by
      rw [shifts_eq_nil_iff, List.map_inj_left]
      rfl
    _ ↔ live = (List.range live.length).map (· * size.bytes) := by
      rw [List.map_id, h.map_packedOffset, eq_comm]

/-- Blocks that all start in front of the end of their packed copies leave no hole. -/
theorem Ascending.packedOffset_eq_self (h : Ascending size live)
    (hfront : ∀ offset ∈ live, offset < live.length * size.bytes) {offset : Nat}
    (ho : offset ∈ live) : packedOffset size live offset = offset := by
  obtain ⟨before, after, hlive, hplace⟩ := h.split ho
  have hle : packedOffset size live offset ≤ offset := h.packedOffset_le offset
  -- the blocks from this one on need the room behind the ones before it
  have hrest : Ascending size (offset :: after) :=
    h.sublist (hlive ▸ List.sublist_append_right before (offset :: after))
  have hmem : ∀ other ∈ offset :: after, other ∈ live := by
    intro other hother
    rw [hlive]
    exact List.mem_append_right _ hother
  have hhigh : ∀ other ∈ offset :: after, other + size.bytes ≤ live.length * size.bytes := by
    intro other hother
    exact (h.aligned other (hmem other hother)).add_bytes_le (Nat.dvd_mul_left _ _)
      (hfront other (hmem other hother))
  have hroom := hrest.add_length_mul_le (Nat.le_of_lt (hfront offset ho))
    (fun _ => hrest.head_le) hhigh
  have hcount : live.length * size.bytes =
      before.length * size.bytes + (offset :: after).length * size.bytes := by
    rw [hlive, List.length_append, Nat.add_mul]
  omega

end Order

theorem Slots.packed_iff_live_eq {size : BlockSize} {slots : Slots} {count : Nat} :
    slots.Packed size count ↔ slots.live = (List.range count).map (· * size.bytes) := by
  have hmem : ∀ offset, offset ∈ (List.range count).map (· * size.bytes) ↔
      ∃ index < count, offset = index * size.bytes := by
    intro offset
    simp only [List.mem_map, List.mem_range, eq_comm]
  refine ⟨fun h => ?_, fun heq offset => ?_⟩
  · have hordered : ((List.range count).map (· * size.bytes)).Pairwise (· < ·) :=
      List.pairwise_map.mpr
        (List.pairwise_lt_range.imp fun hlt => Nat.mul_lt_mul_of_pos_right hlt size.bytes_pos)
    exact (Slots.eq_live hordered fun offset => (hmem offset).trans (h offset).symm).symm
  · rw [← Slots.mem_live, heq, hmem]

/-- Packed slots designate as many blocks as they say. -/
theorem Slots.Packed.length_live {size : BlockSize} {slots : Slots} {count : Nat}
    (h : slots.Packed size count) : slots.live.length = count := by
  rw [packed_iff_live_eq.mp h, List.length_map, List.length_range]

theorem Buffer.blocks_range {size : BlockSize} {buffer : Buffer} (count : Nat) :
    buffer.blocks size ((List.range count).map (· * size.bytes)) =
      buffer.toList.take (count * size.bytes) := by
  induction count with
  | zero => simp
  | succ count ih =>
      rw [List.range_succ, List.map_append, blocks_append, ih, List.map_singleton, blocks_cons,
        blocks_nil, List.append_nil, slice_eq, Nat.succ_mul, List.take_add]

/-! ## What a pass leaves as it is -/

namespace Memory

variable {size : BlockSize} {memory : Memory}

theorem isNoop_account_iff :
    (memory.account size).isNoop = true ↔ shifts size memory.slots.live = [] := by
  simp only [Report.isNoop, account, beq_iff_eq, List.length_eq_zero_iff]

theorem slots_gathered_eq_iff :
    (memory.gathered size).slots = memory.slots ↔ shifts size memory.slots.live = [] := by
  calc (memory.gathered size).slots = memory.slots
    _ ↔ memory.slots.map (Option.map (packedOffset size memory.slots.live)) =
        memory.slots.map id := by rw [Array.map_id, gathered]
    _ ↔ shifts size memory.slots.live = [] := by
      rw [Array.map_inj_left, shifts_eq_nil_iff]
      refine ⟨fun hstay offset ho => ?_, fun hstay reference hr => ?_⟩
      · exact Option.some.inj (hstay (some offset) (Slots.mem_live.mp ho))
      · cases reference with
        | none => rfl
        | some offset => exact congrArg some (hstay offset (Slots.mem_live.mpr hr))

theorem Valid.shifts_eq_nil_iff_packed (h : memory.Valid size) :
    shifts size memory.slots.live = [] ↔ ∃ count, memory.slots.Packed size count := by
  rw [h.ascending.shifts_eq_nil_iff_eq_map]
  refine ⟨fun heq => ⟨_, Slots.packed_iff_live_eq.mpr heq⟩, fun hpacked => ?_⟩
  obtain ⟨count, hcount⟩ := hpacked
  rw [hcount.length_live]
  exact Slots.packed_iff_live_eq.mp hcount

theorem Valid.getElem?_buffer_gathered (h : memory.Valid size) {place : Nat}
    (hle : memory.slots.live.length * size.bytes ≤ place) (hlt : place < memory.buffer.size) :
    (memory.gathered size).buffer[place]? = some 0 := by
  have hbehind : (memory.buffer.blocks size memory.slots.live).length ≤ place := by
    rw [h.length_blocks]
    exact hle
  rw [Memory.gathered, List.getElem?_toArray, List.getElem?_append_right hbehind, h.length_blocks,
    List.getElem?_replicate, if_pos (by omega)]

/--
**A live block behind the packed ones does not survive**: a zero takes the place of its marker.
-/
theorem Valid.lt_of_buffer_gathered_eq (h : memory.Valid size)
    (heq : (memory.gathered size).buffer = memory.buffer) {offset : Nat}
    (ho : offset ∈ memory.slots.live) : offset < memory.slots.live.length * size.bytes := by
  have hblock := h.hasBlock_live ho
  have hinside := hblock.inside
  have hpos := size.bytes_pos
  by_contra hbehind
  have hzero : (memory.gathered size).buffer[offset]? = some 0 :=
    h.getElem?_buffer_gathered (Nat.le_of_not_lt hbehind) (by omega)
  rw [heq] at hzero
  exact hblock.marked hzero

theorem Valid.buffer_gathered_eq_iff (h : memory.Valid size) :
    (memory.gathered size).buffer = memory.buffer ↔
      shifts size memory.slots.live = [] ∧
        ∀ place, memory.slots.live.length * size.bytes ≤ place → place < memory.buffer.size →
          memory.buffer[place]? = some 0 := by
  refine ⟨fun heq => ⟨?_, fun place hle hlt => ?_⟩, fun hand => ?_⟩
  · rw [shifts_eq_nil_iff]
    intro offset ho
    exact h.ascending.packedOffset_eq_self (fun _ => h.lt_of_buffer_gathered_eq heq) ho
  · rw [← heq]
    exact h.getElem?_buffer_gathered hle hlt
  · obtain ⟨hstay, hzero⟩ := hand
    -- the packed blocks are the front of the buffer as it is, and the zeros are its end
    have hblocks : memory.buffer.blocks size memory.slots.live =
        memory.buffer.toList.take (memory.slots.live.length * size.bytes) := by
      rw [← Buffer.blocks_range, ← h.ascending.shifts_eq_nil_iff_eq_map.mp hstay]
    have hrest : memory.buffer.toList.drop (memory.slots.live.length * size.bytes) =
        List.replicate (memory.buffer.size - memory.slots.live.length * size.bytes) 0 := by
      refine List.eq_replicate_iff.mpr ⟨by simp, fun byte hbyte => ?_⟩
      obtain ⟨index, hget⟩ := List.mem_iff_getElem?.mp hbyte
      rw [List.getElem?_drop, Array.getElem?_toList] at hget
      have hlt := (Array.getElem?_eq_some_iff.mp hget).1
      rw [hzero _ (Nat.le_add_right _ _) hlt] at hget
      exact (Option.some.inj hget).symm
    refine Array.toList_inj.mp ?_
    rw [Memory.gathered, hblocks, ← hrest, List.take_append_drop]

/-! ## The second pass -/

theorem Valid.live_gathered (h : memory.Valid size) :
    (memory.gathered size).slots.live =
      (List.range memory.slots.live.length).map (· * size.bytes) := by
  rw [h.relocates.live_eq, h.ascending.map_packedOffset]

/-- **A pass leaves the blocks packed.** -/
theorem Valid.packed_gathered (h : memory.Valid size) :
    (memory.gathered size).slots.Packed size memory.slots.live.length :=
  Slots.packed_iff_live_eq.mpr h.live_gathered

theorem Valid.account_gathered (h : memory.Valid size) :
    (memory.gathered size).account size = { memory.account size with movedBlocks := 0 } := by
  have hmoved : shifts size (memory.gathered size).slots.live = [] :=
    h.gathered.shifts_eq_nil_iff_packed.mpr ⟨_, h.packed_gathered⟩
  simp only [account, hmoved, h.packed_gathered.length_live, h.size_gathered, List.length_nil]

end Memory

/--
**A pass comes to rest at once, and what it leaves alone is exactly what is packed already.**

Suppose a pass over a buffer that is not empty succeeds. A second pass succeeds too, changes nothing
and accounts for the same blocks and bytes, none of them moved. The first pass moved no block if and
only if no slot changed, and if and only if the slots designate the first blocks of the buffer, some
number of them, and no others. It left the buffer as it was if and only if it moved no block and
every byte behind the live ones was zero to begin with.
-/
theorem compact_fixed_point {size : BlockSize} {memory : Memory} {report : Report}
    (hne : memory.buffer.size ≠ 0) (h : (memory.compact size).result = .ok report) :
    (∃ again, ((memory.compact size).memory.compact size).result = .ok again ∧
        again.isNoop = true ∧
        again.liveBlocks = report.liveBlocks ∧
        again.liveBytes = report.liveBytes ∧
        again.freedBytes = report.freedBytes) ∧
      ((memory.compact size).memory.compact size).memory = (memory.compact size).memory ∧
      (report.isNoop = true ↔ (memory.compact size).memory.slots = memory.slots) ∧
      (report.isNoop = true ↔ ∃ count, memory.slots.Packed size count) ∧
      ((memory.compact size).memory.buffer = memory.buffer ↔
        report.isNoop = true ∧
          ∀ place, report.liveBytes ≤ place → place < memory.buffer.size →
            memory.buffer[place]? = some 0) := by
  obtain ⟨hvalid, rfl, hafter⟩ := Memory.compact_of_ok hne h
  rw [hafter, Memory.compact_of_valid_eq hvalid.gathered, Memory.isNoop_account_iff]
  refine ⟨⟨_, rfl, ?_⟩, ?_, ?_, ?_, ?_⟩
  · rw [hvalid.account_gathered]
    exact ⟨rfl, rfl, rfl, rfl⟩
  · exact hvalid.relocates.gathered_eq
  · exact Memory.slots_gathered_eq_iff.symm
  · exact hvalid.shifts_eq_nil_iff_packed
  · exact hvalid.buffer_gathered_eq_iff

/-- Two blocks alike in their places, and a marked block behind them that no slot designates. -/
def Memory.twins : Memory where
  buffer := #[5, 0, 5, 0, 0, 0, 9, 9]
  slots := #[some 2, some 0, some 2]

theorem compact_fixed_point_twins :
    (Memory.twins.compact .two).memory.slots = Memory.twins.slots ∧
      (Memory.twins.compact .two).memory.buffer ≠ Memory.twins.buffer ∧
      ((Memory.twins.compact .two).memory.compact .two).memory =
        (Memory.twins.compact .two).memory := by
  have hresult : (Memory.twins.compact .two).result =
      .ok { blockSize := .two, liveBlocks := 2, movedBlocks := 0, liveBytes := 4,
            freedBytes := 4 } := rfl
  obtain ⟨-, hagain, hslots, -, hbuffer⟩ := compact_fixed_point (by decide) hresult
  refine ⟨hslots.mp rfl, fun heq => ?_, hagain⟩
  have hzero : Memory.twins.buffer[6]? = some 0 :=
    (hbuffer.mp heq).2 6 (by decide) (by decide)
  exact absurd hzero (by decide)

end Compaction

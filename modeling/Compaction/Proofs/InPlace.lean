import Compaction.Proofs.Layout

/-!
# Packing in place

A pass writes to the buffer it still has to read from. What makes that safe is an invariant of the
loop, `Relocation.Packs`: after any number of blocks the buffer holds the packed blocks and, behind
them, the bytes it has held there all along. The next block to be packed lies behind the packed
ones, by `Ascending.length_mul_le`, so its bytes are still the ones it started with.

The invariant at the end of the loop is the memory of `Memory.gathered`, in which nothing is ever
overwritten. `Memory.compact_of_valid_eq` says so for the whole outcome of a pass, report and
journal included, and is what the other properties of a pass are derived from.
-/

namespace Compaction

/-! ## Writes as lists of bytes -/

namespace Buffer

variable {buffer : Buffer}

theorem toList_overwrite {offset : Nat} {bytes : List UInt8}
    (h : offset + bytes.length ≤ buffer.size) :
    (buffer.overwrite offset bytes).toList =
      buffer.toList.take offset ++ bytes ++ buffer.toList.drop (offset + bytes.length) := by
  induction bytes generalizing buffer offset with
  | nil => simp [overwrite]
  | cons byte rest ih =>
      rw [List.length_cons] at h
      have hlt : offset < buffer.toList.length := by
        rw [Array.length_toList]
        omega
      rw [overwrite, ih (by rw [Array.size_setIfInBounds]; omega), Array.toList_setIfInBounds,
        List.take_succ_eq_append_getElem (by rwa [List.length_set]), List.getElem_set_self,
        List.take_set_of_le (Nat.le_refl _), List.drop_set_of_lt (by omega), List.length_cons,
        List.append_assoc, List.append_assoc, List.singleton_append,
        show offset + (rest.length + 1) = offset + 1 + rest.length by omega]
      simp

theorem toList_clearFrom (start : Nat) :
    (buffer.clearFrom start).toList =
      buffer.toList.take start ++ List.replicate (buffer.size - start) 0 := by
  simp [clearFrom]

end Buffer

/-! ## The slots of a live block -/

namespace LiveIndex

theorem mem_holders_ofOffsets {offsets : List Nat} {offset slot : Nat} :
    slot ∈ (ofOffsets offsets).holders offset ↔ offsets[slot]? = some offset := by
  rw [holders_ofOffsets]
  refine ⟨fun h => ?_, fun h => ?_⟩
  · obtain ⟨⟨held, place⟩, hmem, rfl⟩ := List.mem_map.mp h
    obtain ⟨hzip, heq⟩ := List.mem_filter.mp hmem
    obtain rfl : held = offset := by simpa using heq
    simpa using List.mem_zipIdx_iff_getElem?.mp hzip
  · refine List.mem_map.mpr ⟨(offset, slot), List.mem_filter.mpr ⟨?_, by simp⟩, rfl⟩
    exact List.mem_zipIdx_iff_getElem?.mpr h

theorem toList_of_mem {index : LiveIndex} {entry : Nat × Array Nat} (h : entry ∈ index.toList) :
    entry.2.toList = index.holders entry.1 := by
  have hget : index[entry.1]? = some entry.2 :=
    Std.TreeMap.mem_toList_iff_getElem?_eq_some.mp h
  rw [holders, hget]
  rfl

end LiveIndex

theorem Memory.keys_ofOffsets (memory : Memory) :
    (LiveIndex.ofOffsets memory.offsets).keys = memory.slots.live := by
  refine Slots.eq_live (LiveIndex.pairwise_keys _) fun offset => ?_
  rw [Std.TreeMap.mem_keys, LiveIndex.mem_ofOffsets, Memory.mem_offsets]

/-- The entry of the index for a live block lists the slots that hold its offset. -/
theorem Memory.Valid.mem_holders_iff {size : BlockSize} {memory : Memory} (h : memory.Valid size)
    {entry : Nat × Array Nat} (hentry : entry ∈ (LiveIndex.ofOffsets memory.offsets).toList)
    (slot : Nat) : slot ∈ entry.2.toList ↔ memory.slots[slot]? = some (some entry.1) := by
  rw [LiveIndex.toList_of_mem hentry, LiveIndex.mem_holders_ofOffsets, ← Array.getElem?_toList,
    h.slots_eq, List.getElem?_map]
  cases memory.offsets[slot]? <;> simp

/-! ## The loop -/

namespace Relocation

variable {size : BlockSize} {start : Memory} {done : List Nat} {relocation : Relocation}

/-- The blocks at the offsets in `done` have been packed, in that order. -/
structure Packs (size : BlockSize) (start : Memory) (done : List Nat) (relocation : Relocation) :
    Prop where
  /-- The next block goes behind the packed ones. -/
  packed : relocation.packed = done.length * size.bytes
  /-- Behind the packed blocks the buffer is as it was. -/
  buffer : relocation.memory.buffer.toList =
    start.buffer.blocks size done ++ start.buffer.toList.drop (done.length * size.bytes)
  /-- Slots of packed blocks have followed them, the others have not changed. -/
  slots : relocation.memory.slots = start.slots.map (Option.map (packedOffset size done))
  /-- The blocks that were not in their place have been noted down. -/
  moves : relocation.moves.toList = shifts size done

theorem packs_nil : Packs size start [] { memory := start } where
  packed := by simp
  buffer := by simp
  slots := by
    have hid : packedOffset size [] = id := funext fun offset => rfl
    rw [hid, Option.map_id, Array.map_id]
  moves := rfl

theorem Packs.size_buffer (h : Packs size start done relocation)
    (hblocks : (start.buffer.blocks size done).length = done.length * size.bytes)
    (hroom : done.length * size.bytes ≤ start.buffer.size) :
    relocation.memory.buffer.size = start.buffer.size := by
  have hbytes : start.buffer.toList.length = start.buffer.size := Array.length_toList
  have hlength := congrArg List.length h.buffer
  rw [List.length_append, hblocks, List.length_drop, hbytes] at hlength
  calc relocation.memory.buffer.size = relocation.memory.buffer.toList.length :=
        Array.length_toList.symm
    _ = start.buffer.size := by omega

theorem Packs.drop_buffer (h : Packs size start done relocation)
    (hblocks : (start.buffer.blocks size done).length = done.length * size.bytes) {place : Nat}
    (hle : done.length * size.bytes ≤ place) :
    relocation.memory.buffer.toList.drop place = start.buffer.toList.drop place := by
  rw [h.buffer, List.drop_append, hblocks, List.drop_eq_nil_of_le (by rw [hblocks]; exact hle),
    List.nil_append, List.drop_drop, Nat.add_sub_cancel' hle]

/-- Copying a block over itself changes nothing, so both branches write the same buffer. -/
theorem toList_buffer_place {source : Nat} {holders : List Nat}
    (hfirst : relocation.packed ≤ source)
    (hinside : source + size.bytes ≤ relocation.memory.buffer.size) :
    (relocation.place size source holders).memory.buffer.toList =
      relocation.memory.buffer.toList.take relocation.packed ++
        (relocation.memory.buffer.toList.drop source).take size.bytes ++
        relocation.memory.buffer.toList.drop (relocation.packed + size.bytes) := by
  unfold place
  by_cases heq : relocation.packed = source
  · rw [if_pos heq, ← heq, ← List.drop_drop, List.append_assoc, List.take_append_drop,
      List.take_append_drop]
    rfl
  · have hlength : (relocation.memory.buffer.slice source size.bytes).length = size.bytes :=
      Buffer.length_slice hinside
    rw [if_neg heq]
    show (relocation.memory.buffer.overwrite relocation.packed
      (relocation.memory.buffer.slice source size.bytes)).toList = _
    rw [Buffer.toList_overwrite (by omega), hlength, Buffer.slice_eq]

theorem slots_place {source : Nat} {holders : List Nat} :
    (relocation.place size source holders).memory.slots =
      relocation.memory.slots.assign relocation.packed holders := by
  unfold place
  by_cases heq : relocation.packed = source
  · rw [if_pos heq]
    rfl
  · rw [if_neg heq]
    rfl

theorem moves_place {source : Nat} {holders : List Nat} :
    (relocation.place size source holders).moves.toList =
      relocation.moves.toList ++
        if relocation.packed = source then [] else [⟨source, relocation.packed⟩] := by
  unfold place
  by_cases heq : relocation.packed = source
  · rw [if_pos heq, if_pos heq, List.append_nil]
  · rw [if_neg heq, if_neg heq, Array.toList_push]

/-- **One more block is packed.** -/
theorem Packs.place {source : Nat} {holders : List Nat} (h : Packs size start done relocation)
    (hlive : Ascending size (done ++ [source]))
    (hinside : ∀ offset ∈ done ++ [source], offset + size.bytes ≤ start.buffer.size)
    (hholders : ∀ slot, slot ∈ holders ↔ start.slots[slot]? = some (some source)) :
    Packs size start (done ++ [source]) (relocation.place size source holders) := by
  have hfirst : done.length * size.bytes ≤ source := hlive.length_mul_le
  have hblocks : (start.buffer.blocks size done).length = done.length * size.bytes :=
    Buffer.length_blocks fun o ho => hinside o (List.mem_append_left _ ho)
  have hsource : source + size.bytes ≤ start.buffer.size := hinside source (by simp)
  have hnew : source ∉ done := fun hmem =>
    Nat.lt_irrefl source ((List.pairwise_append.mp hlive.ordered).2.2 source hmem source (by simp))
  have hlength : relocation.memory.buffer.size = start.buffer.size :=
    h.size_buffer hblocks (by omega)
  refine ⟨?_, ?_, ?_, ?_⟩
  · -- the place of the next block
    rw [packed_place, h.packed, List.length_append, List.length_singleton, Nat.succ_mul]
  · -- the buffer
    -- the block is read behind the packed ones, where the buffer is as it was
    rw [toList_buffer_place (by rw [h.packed]; exact hfirst) (by rw [hlength]; exact hsource),
      h.packed, h.drop_buffer hblocks hfirst, h.drop_buffer hblocks (Nat.le_add_right _ _),
      h.buffer, List.take_left' hblocks, Buffer.blocks_append, Buffer.blocks_cons,
      Buffer.blocks_nil, List.append_nil, Buffer.slice_eq, List.length_append,
      List.length_singleton, Nat.succ_mul]
  · -- the slots, by what each of them held at the start
    rw [slots_place, h.slots, h.packed]
    refine Array.ext_getElem? fun slot => ?_
    rw [Slots.getElem?_assign, Array.size_map, Array.getElem?_map, Array.getElem?_map]
    by_cases hslot : slot ∈ holders
    · have hheld : start.slots[slot]? = some (some source) := (hholders slot).mp hslot
      have hlt : slot < start.slots.size := (Array.getElem?_eq_some_iff.mp hheld).1
      rw [if_pos ⟨hslot, hlt⟩, hheld, Option.map_some, Option.map_some,
        packedOffset_concat hnew, if_pos rfl]
    · rw [if_neg fun hand => hslot hand.1]
      match hget : start.slots[slot]? with
      | none => rfl
      | some none => rfl
      | some (some offset) =>
          have hne : offset ≠ source := fun heq => hslot ((hholders slot).mpr (heq ▸ hget))
          rw [Option.map_some, Option.map_some, Option.map_some, Option.map_some,
            packedOffset_concat hnew, if_neg hne]
  · rw [moves_place, h.moves, h.packed, shifts_concat hnew]

/-- The relocation when the blocks of some more entries have been packed, one after the other. -/
def placeAll (size : BlockSize) (relocation : Relocation) (entries : List (Nat × Array Nat)) :
    Relocation :=
  entries.foldl
    (fun relocation (source, holders) => relocation.place size source holders.toList) relocation

theorem placeAll_cons {source : Nat} {holders : Array Nat} {rest : List (Nat × Array Nat)} :
    relocation.placeAll size ((source, holders) :: rest) =
      (relocation.place size source holders.toList).placeAll size rest := rfl

/-- **All the blocks of a list of entries are packed.** -/
theorem Packs.placeAll {entries : List (Nat × Array Nat)} (h : Packs size start done relocation)
    (hlive : Ascending size (done ++ entries.map Prod.fst))
    (hinside : ∀ offset ∈ done ++ entries.map Prod.fst, offset + size.bytes ≤ start.buffer.size)
    (hholders : ∀ entry ∈ entries, ∀ slot,
      slot ∈ entry.2.toList ↔ start.slots[slot]? = some (some entry.1)) :
    Packs size start (done ++ entries.map Prod.fst) (relocation.placeAll size entries) := by
  induction entries generalizing done relocation with
  | nil =>
      rw [List.map_nil, List.append_nil]
      exact h
  | cons entry rest ih =>
      obtain ⟨source, holders⟩ := entry
      obtain ⟨hentry, hrest⟩ := List.forall_mem_cons.mp hholders
      rw [List.map_cons, List.append_cons] at hlive hinside ⊢
      rw [placeAll_cons]
      exact ih (h.place hlive.of_append (fun o ho => hinside o (List.mem_append_left _ ho)) hentry)
        hlive hinside hrest

/-- The blocks of the first entries of the index are packed, however many they are. -/
theorem packs_entries (h : start.Valid size) {entries rest : List (Nat × Array Nat)}
    (hsplit : (LiveIndex.ofOffsets start.offsets).toList = entries ++ rest) :
    Packs size start (entries.map Prod.fst) (placeAll size { memory := start } entries) := by
  have hkeys : entries.map Prod.fst ++ rest.map Prod.fst = start.slots.live := by
    rw [← List.map_append, ← hsplit, Std.TreeMap.map_fst_toList_eq_keys, start.keys_ofOffsets]
  have hlive : Ascending size (entries.map Prod.fst) := Ascending.of_append (hkeys ▸ h.ascending)
  refine packs_nil.placeAll hlive ?_ ?_
  · exact fun offset ho => (h.hasBlock_live (hkeys ▸ List.mem_append_left _ ho)).inside
  · intro entry hentry
    exact h.mem_holders_iff (hsplit ▸ List.mem_append_left _ hentry)

theorem packs_run (h : start.Valid size) :
    Packs size start start.slots.live (run size (.ofOffsets start.offsets) start) := by
  have hpacks := packs_entries h (List.append_nil _).symm
  rwa [Std.TreeMap.map_fst_toList_eq_keys, start.keys_ofOffsets] at hpacks

end Relocation

/-! ## The outcome of a pass -/

namespace Memory

variable {size : BlockSize} {memory : Memory}

/-- **A pass over a valid memory leaves the memory put together out of place.** -/
theorem compact_of_valid_eq (h : memory.Valid size) :
    memory.compact size =
      { result := .ok (memory.account size)
        memory := memory.gathered size
        journal := (shifts size memory.slots.live).map .moved ++
          [.finished memory.buffer.size (memory.account size)] } := by
  have hpacks := Relocation.packs_run h
  have hcount : (LiveIndex.ofOffsets memory.offsets).size = memory.slots.live.length := by
    rw [← Std.TreeMap.length_keys, memory.keys_ofOffsets]
  have hlength := hpacks.size_buffer h.length_blocks h.length_live_mul_le
  have hbuffer : ((Relocation.run size (.ofOffsets memory.offsets) memory).memory.buffer.clearFrom
      (memory.slots.live.length * size.bytes)) = (memory.gathered size).buffer := by
    refine Array.toList_inj.mp ?_
    rw [Buffer.toList_clearFrom, hlength, hpacks.buffer, List.take_left' h.length_blocks]
    rfl
  have hmoves : (Relocation.run size (.ofOffsets memory.offsets) memory).moves.size =
      (shifts size memory.slots.live).length := by
    rw [← hpacks.moves, Array.length_toList]
  rw [compact_of_valid h, pack]
  simp only [account, hcount, hmoves, hpacks.packed, hpacks.moves, clearFrom, hbuffer, hpacks.slots]
  rfl

theorem compact_of_ok {report : Report} (hne : memory.buffer.size ≠ 0)
    (h : (memory.compact size).result = .ok report) :
    memory.Valid size ∧ report = memory.account size ∧
      (memory.compact size).memory = memory.gathered size := by
  have hvalid := valid_of_ok hne h
  rw [compact_of_valid_eq hvalid] at h ⊢
  exact ⟨hvalid, (Except.ok.inj h).symm, rfl⟩

end Memory

/--
**Packing in place is packing out of place.**

Let `live` list the offsets that the slots hold, each once and in ascending order. After a pass that
succeeds the buffer, as long as it was, holds the blocks that lay at those offsets before the pass,
one behind the other, and zeros behind them. The slots, as many as there were, all held offsets of
`live`, and one that held the `index`-th of them now holds `index` times the width of a block.
-/
theorem compact_out_of_place {size : BlockSize} {memory : Memory} {report : Report}
    {live : List Nat} (hne : memory.buffer.size ≠ 0)
    (h : (memory.compact size).result = .ok report) (hordered : live.Pairwise (· < ·))
    (hlive : ∀ offset, offset ∈ live ↔ some offset ∈ memory.slots) :
    (∀ offset ∈ live, offset + size.bytes ≤ memory.buffer.size) ∧
      live.length * size.bytes ≤ memory.buffer.size ∧
      (memory.compact size).memory.buffer.size = memory.buffer.size ∧
      (memory.compact size).memory.buffer.toList =
        live.flatMap (fun offset => memory.buffer.slice offset size.bytes) ++
          List.replicate (memory.buffer.size - live.length * size.bytes) 0 ∧
      (memory.compact size).memory.slots.size = memory.slots.size ∧
      (∀ reference ∈ memory.slots, ∃ offset ∈ live, reference = some offset) ∧
      ∀ slot index offset : Nat, live[index]? = some offset →
        memory.slots[slot]? = some (some offset) →
        (memory.compact size).memory.slots[slot]? = some (some (index * size.bytes)) := by
  obtain ⟨hvalid, -, hafter⟩ := Memory.compact_of_ok hne h
  obtain rfl : live = memory.slots.live := Slots.eq_live hordered hlive
  rw [hafter]
  refine ⟨?_, hvalid.length_live_mul_le, hvalid.size_gathered, rfl, Memory.size_slots_gathered,
    ?_, ?_⟩
  · exact fun offset ho => (hvalid.hasBlock_live ho).inside
  · intro reference hr
    obtain ⟨offset, rfl, -⟩ := hvalid.sound reference hr
    exact ⟨offset, Slots.mem_live.mpr hr, rfl⟩
  · intro slot index offset hindex hslot
    rw [Memory.gathered, Array.getElem?_map, hslot, Option.map_some, Option.map_some,
      hvalid.ascending.packedOffset_getElem hindex]

/-- Three live blocks, two of which move to where another one lay; two slots hold the last. -/
def Memory.chain : Memory where
  buffer := #[0, 0, 7, 8, 5, 0, 9, 9, 1, 2]
  slots := #[some 8, some 2, some 4, some 8]

theorem compact_out_of_place_chain :
    (Memory.chain.compact .two).memory.buffer.toList =
        [2, 4, 8].flatMap (fun offset => Memory.chain.buffer.slice offset 2) ++
          List.replicate 4 0 ∧
      (Memory.chain.compact .two).memory.slots[0]? = some (some 4) := by
  have hresult : (Memory.chain.compact .two).result =
      .ok { blockSize := .two, liveBlocks := 3, movedBlocks := 3, liveBytes := 6,
            freedBytes := 4 } := rfl
  have hlive : ∀ offset, offset ∈ [2, 4, 8] ↔ some offset ∈ Memory.chain.slots := by
    intro offset
    simp only [Memory.chain, List.mem_cons, List.not_mem_nil, List.mem_toArray, Option.some.injEq,
      or_false]
    omega
  obtain ⟨-, -, -, hbuffer, -, -, hslots⟩ :=
    compact_out_of_place (by decide) hresult (by decide) hlive
  exact ⟨hbuffer, hslots 0 2 8 rfl rfl⟩

end Compaction

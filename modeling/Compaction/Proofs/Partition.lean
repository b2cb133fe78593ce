import Compaction.Proofs.Account

/-!
# The index is a partition of the slots

A pass resolves all slots first and builds the index of live blocks from the offsets afterwards. The
two can be done in one loop, `LiveIndex.gather`, which notes a slot as soon as it is resolved and
stops at the first one that cannot be. `LiveIndex.gather_eq` says that this makes no difference,
faults included.

What is known of one block after any number of slots is said where the index is defined: the slots
noted for it are those that hold its offset, in ascending order. Here this is put together for all
blocks. Each slot holds one offset, so it is noted for one block and once, and the lists of all
blocks, one behind the other, are the slot numbers in some order.
-/

namespace Compaction

namespace LiveIndex

/--
Notes slots in an index, each as soon as its reference is resolved. The first reference is held in
slot `start`.
-/
def gather (size : BlockSize) (buffer : Buffer) (start : Nat) (index : LiveIndex) :
    List Reference → Except Fault LiveIndex
  | [] => .ok index
  | reference :: rest =>
    match Buffer.resolve size buffer start reference with
    | .error fault => .error fault
    | .ok offset => gather size buffer (start + 1) (index.note offset start) rest

variable {size : BlockSize} {buffer : Buffer} {references : List Reference}

/-- **Noting slots while they are resolved is noting them afterwards.** -/
theorem gather_eq (start : Nat) (index : LiveIndex) :
    gather size buffer start index references =
      (Buffer.resolveFrom size buffer start references).map fun offsets =>
        (offsets.zipIdx start).foldl
          (fun index (offset, slot) => index.note offset slot) index := by
  induction references generalizing start index with
  | nil => rfl
  | cons reference rest ih =>
      rw [gather]
      cases hhead : Buffer.resolve size buffer start reference with
      | error fault =>
          rw [Buffer.resolveFrom_cons_of_error hhead]
          rfl
      | ok offset =>
          rw [Buffer.resolveFrom_cons_of_ok hhead]
          dsimp only
          rw [ih]
          cases Buffer.resolveFrom size buffer (start + 1) rest <;> rfl

theorem gather_slots (memory : Memory) :
    gather size memory.buffer 0 ∅ memory.slots.toList =
      (memory.resolveSlots size).map ofOffsets :=
  gather_eq 0 ∅

/-! ## The slots of one block -/

variable {offsets : List Nat} {entry other : Nat × Array Nat} {slot : Nat}

theorem pairwise_holders_ofOffsets (offsets : List Nat) (offset : Nat) :
    ((ofOffsets offsets).holders offset).Pairwise (· < ·) := by
  have hslots : (offsets.zipIdx.map Prod.snd).Pairwise (· < ·) := by
    rw [List.zipIdx_map_snd]
    exact List.pairwise_lt_range'
  rw [holders_ofOffsets]
  exact hslots.sublist (List.filter_sublist.map Prod.snd)

theorem mem_entry_iff (h : entry ∈ (ofOffsets offsets).toList) :
    slot ∈ entry.2.toList ↔ offsets[slot]? = some entry.1 := by
  rw [toList_of_mem h, mem_holders_ofOffsets]

theorem pairwise_entry (h : entry ∈ (ofOffsets offsets).toList) :
    entry.2.toList.Pairwise (· < ·) := by
  rw [toList_of_mem h]
  exact pairwise_holders_ofOffsets offsets entry.1

theorem mem_keys_ofOffsets {offset : Nat} :
    offset ∈ (ofOffsets offsets).toList.map Prod.fst ↔ offset ∈ offsets := by
  rw [Std.TreeMap.map_fst_toList_eq_keys, Std.TreeMap.mem_keys, mem_ofOffsets]

theorem entry_ne_nil (h : entry ∈ (ofOffsets offsets).toList) : entry.2.toList ≠ [] := by
  have hkey : entry.1 ∈ offsets := mem_keys_ofOffsets.mp (List.mem_map_of_mem h)
  obtain ⟨slot, hslot⟩ := List.getElem?_of_mem hkey
  exact List.ne_nil_of_mem ((mem_entry_iff h).mpr hslot)

/-! ## All blocks -/

theorem pairwise_entries (index : LiveIndex) :
    (index.toList.map Prod.fst).Pairwise (· < ·) := by
  rw [Std.TreeMap.map_fst_toList_eq_keys]
  exact pairwise_keys index

/-- Two blocks that share a slot are one. -/
theorem eq_of_mem_of_mem (h : entry ∈ (ofOffsets offsets).toList)
    (hother : other ∈ (ofOffsets offsets).toList) (hslot : slot ∈ entry.2.toList)
    (hshared : slot ∈ other.2.toList) : entry = other := by
  have hkeys : some entry.1 = some other.1 :=
    ((mem_entry_iff h).mp hslot).symm.trans ((mem_entry_iff hother).mp hshared)
  have hkey : entry.1 = other.1 := Option.some.inj hkeys
  have hslots : entry.2 = other.2 := by
    rw [← Array.toList_inj, toList_of_mem h, toList_of_mem hother, hkey]
  exact Prod.ext hkey hslots

theorem exists_entry_of_lt (h : slot < offsets.length) :
    ∃ entry ∈ (ofOffsets offsets).toList, slot ∈ entry.2.toList := by
  have hkey : offsets[slot] ∈ (ofOffsets offsets).toList.map Prod.fst :=
    mem_keys_ofOffsets.mpr (List.getElem_mem h)
  obtain ⟨entry, hentry, hfst⟩ := List.mem_map.mp hkey
  refine ⟨entry, hentry, (mem_entry_iff hentry).mpr ?_⟩
  rw [hfst, List.getElem?_eq_getElem h]

/-- **The lists of all blocks are the slot numbers, each of them once.** -/
theorem flatMap_entries_perm (offsets : List Nat) :
    ((ofOffsets offsets).toList.flatMap fun entry => entry.2.toList).Perm
      (List.range offsets.length) := by
  have hnodup : ((ofOffsets offsets).toList.flatMap fun entry => entry.2.toList).Nodup := by
    rw [List.nodup_flatMap]
    refine ⟨fun entry hentry => (pairwise_entry hentry).imp Nat.ne_of_lt, ?_⟩
    -- blocks at different offsets have no slot in common
    have hkeys := List.pairwise_map.mp (pairwise_entries (ofOffsets offsets))
    refine hkeys.imp_of_mem fun {entry other} hentry hother hlt slot hslot hshared => ?_
    rw [eq_of_mem_of_mem hentry hother hslot hshared] at hlt
    exact Nat.lt_irrefl _ hlt
  refine (List.perm_ext_iff_of_nodup hnodup List.nodup_range).mpr fun slot => ?_
  rw [List.mem_flatMap, List.mem_range]
  constructor
  · rintro ⟨entry, hentry, hslot⟩
    exact (List.getElem?_eq_some_iff.mp ((mem_entry_iff hentry).mp hslot)).1
  · exact exists_entry_of_lt

end LiveIndex

/-! ## The slots of a memory -/

namespace Memory

variable {size : BlockSize} {memory : Memory} {offsets : List Nat} {offset slot : Nat}

theorem toList_slots_of_resolveSlots (h : memory.resolveSlots size = .ok offsets) :
    memory.slots.toList = offsets.map some :=
  (Buffer.resolveFrom_eq_ok_iff.mp h).1

theorem size_slots_of_resolveSlots (h : memory.resolveSlots size = .ok offsets) :
    memory.slots.size = offsets.length := by
  rw [← Array.length_toList, toList_slots_of_resolveSlots h, List.length_map]

theorem getElem?_slots_of_resolveSlots (h : memory.resolveSlots size = .ok offsets) :
    memory.slots[slot]? = some (some offset) ↔ offsets[slot]? = some offset := by
  rw [← Array.getElem?_toList, toList_slots_of_resolveSlots h, List.getElem?_map]
  cases offsets[slot]? <;> simp

theorem mem_slots_of_resolveSlots (h : memory.resolveSlots size = .ok offsets) :
    some offset ∈ memory.slots ↔ offset ∈ offsets := by
  rw [← Array.mem_toList_iff, toList_slots_of_resolveSlots h]
  simp

/-- Each offset is that of a marked block, whether or not the buffer ends with a block. -/
theorem hasBlock_of_resolveSlots (h : memory.resolveSlots size = .ok offsets)
    (ho : offset ∈ offsets) : memory.buffer.HasBlock size offset :=
  (Buffer.resolveFrom_eq_ok_iff.mp h).2 offset ho

end Memory

theorem Buffer.HasBlock.exists_marker {size : BlockSize} {buffer : Buffer} {offset : Nat}
    (h : buffer.HasBlock size offset) : ∃ marker, buffer[offset]? = some marker ∧ marker ≠ 0 := by
  have hpos := size.bytes_pos
  have hinside := h.inside
  have hlt : offset < buffer.size := by omega
  refine ⟨buffer[offset], Array.getElem?_eq_getElem hlt, fun hzero => h.marked ?_⟩
  rw [Array.getElem?_eq_getElem hlt, hzero]

/--
**The index of live blocks is an exact grouping of the slots.**

Let noting the slots of a memory, each as soon as it is resolved, come to its end. Then the index is
the one that a pass works with. Its offsets are met in strictly ascending order, each of them on a
boundary, not behind the last place at which a block fits, and that of a byte that is not zero. They
are the offsets that occur in the slots, and the size of the index is their number.

The slots listed for an offset are one or more, in strictly ascending order, and they are those that
hold the offset. So each slot of the memory is listed for one offset only, and the lists of all
offsets, one behind the other, hold each slot number once.
-/
theorem gather_partitions {size : BlockSize} {memory : Memory} {index : LiveIndex}
    (h : LiveIndex.gather size memory.buffer 0 ∅ memory.slots.toList = .ok index) :
    (memory.resolveSlots size).map LiveIndex.ofOffsets = .ok index ∧
      (index.toList.map Prod.fst).Pairwise (· < ·) ∧
      (∀ offset ∈ index.toList.map Prod.fst, size.Aligned offset ∧
        size.bytes ≤ memory.buffer.size ∧ offset ≤ memory.buffer.size - size.bytes ∧
        ∃ marker, memory.buffer[offset]? = some marker ∧ marker ≠ 0) ∧
      (∀ offset, offset ∈ index.toList.map Prod.fst ↔ some offset ∈ memory.slots) ∧
      index.size = {offset | some offset ∈ memory.slots}.ncard ∧
      (∀ entry ∈ index.toList, entry.2.toList ≠ [] ∧ entry.2.toList.Pairwise (· < ·) ∧
        ∀ slot, slot ∈ entry.2.toList ↔ memory.slots[slot]? = some (some entry.1)) ∧
      (∀ slot < memory.slots.size, ∃! entry, entry ∈ index.toList ∧ slot ∈ entry.2.toList) ∧
      (index.toList.flatMap fun entry => entry.2.toList).Perm (List.range memory.slots.size) := by
  rw [LiveIndex.gather_slots] at h
  cases hresolve : memory.resolveSlots size with
  | error fault =>
      rw [hresolve] at h
      cases h
  | ok offsets =>
      rw [hresolve] at h
      obtain rfl : LiveIndex.ofOffsets offsets = index := Except.ok.inj h
      have hmem : ∀ offset, offset ∈ (LiveIndex.ofOffsets offsets).toList.map Prod.fst ↔
          some offset ∈ memory.slots := by
        intro offset
        rw [LiveIndex.mem_keys_ofOffsets, Memory.mem_slots_of_resolveSlots hresolve]
      have hkeys := LiveIndex.pairwise_entries (LiveIndex.ofOffsets offsets)
      rw [Memory.size_slots_of_resolveSlots hresolve]
      refine ⟨rfl, hkeys, ?_, hmem, ?_, ?_, ?_, LiveIndex.flatMap_entries_perm offsets⟩
      · intro offset ho
        have hblock := Memory.hasBlock_of_resolveSlots hresolve (LiveIndex.mem_keys_ofOffsets.mp ho)
        have hinside := hblock.inside
        exact ⟨hblock.aligned, by omega, by omega, hblock.exists_marker⟩
      · simp only [← hmem]
        rw [ncard_setOf_mem (hkeys.imp Nat.ne_of_lt), List.length_map, Std.TreeMap.length_toList]
      · intro entry hentry
        refine ⟨LiveIndex.entry_ne_nil hentry, LiveIndex.pairwise_entry hentry, fun slot => ?_⟩
        rw [LiveIndex.mem_entry_iff hentry, Memory.getElem?_slots_of_resolveSlots hresolve]
      · intro slot hlt
        obtain ⟨entry, hentry, hheld⟩ := LiveIndex.exists_entry_of_lt hlt
        exact ⟨entry, ⟨hentry, hheld⟩, fun other hother =>
          LiveIndex.eq_of_mem_of_mem hother.1 hentry hother.2 hheld⟩

/-- Two blocks, one of them held twice, and half a block at the end. -/
def Memory.ragged : Memory where
  buffer := #[0, 0, 7, 8, 5, 0, 9]
  slots := #[some 4, some 2, some 4]

theorem gather_partitions_ragged :
    ∃ index, LiveIndex.gather .two Memory.ragged.buffer 0 ∅ Memory.ragged.slots.toList =
        .ok index ∧
      index.size = 2 ∧ {offset | some offset ∈ Memory.ragged.slots}.ncard = 2 ∧
      (∀ entry ∈ index.toList,
        2 ∈ entry.2.toList ↔ Memory.ragged.slots[2]? = some (some entry.1)) ∧
      (∃! entry, entry ∈ index.toList ∧ 2 ∈ entry.2.toList) ∧
      (index.toList.flatMap fun entry => entry.2.toList).Perm [0, 1, 2] := by
  have hgather : LiveIndex.gather .two Memory.ragged.buffer 0 ∅ Memory.ragged.slots.toList =
      .ok (LiveIndex.ofOffsets [4, 2, 4]) := LiveIndex.gather_slots Memory.ragged
  have htwo : (LiveIndex.ofOffsets [4, 2, 4]).size = 2 := by decide +kernel
  obtain ⟨-, -, -, -, hsize, hentries, hunique, hperm⟩ := gather_partitions hgather
  exact ⟨_, hgather, htwo, hsize ▸ htwo, fun entry hentry => (hentries entry hentry).2.2 2,
    hunique 2 (by decide), hperm⟩

end Compaction

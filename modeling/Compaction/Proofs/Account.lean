import Compaction.Proofs.FixedPoint
import Mathlib.Data.Set.Card
import Mathlib.Order.Bounds.Basic

/-!
# What a report counts

The number of moved blocks in a report is a counter of the loop. What it comes to depends on one
place only, the first hole. The blocks in front of it are `settled`: they lie where packing puts
them. From the first block behind the hole on every block moves, however many more holes there are,
because no block has a shorter way to go than one in front of it
(`Ascending.packedOffset_add_le_add`).

So the blocks that move are the last of the live ones, and the settled ones can be counted without
looking at a pass: they are the first blocks of the buffer, up to the first that no slot designates.
-/

namespace Compaction

/-- How many live blocks lie in front of the first that packing takes elsewhere. -/
def settled (size : BlockSize) (live : List Nat) : Nat :=
  live.findIdx fun offset => packedOffset size live offset ≠ offset

/-! ## The first hole -/

section Order

variable {size : BlockSize} {live : List Nat} {index offset : Nat}

/-- **No block has a shorter way to go than one in front of it.** -/
theorem Ascending.packedOffset_add_le_add (h : Ascending size live) {first second : Nat}
    (hf : first ∈ live) (hs : second ∈ live) (hle : first ≤ second) :
    packedOffset size live second + first ≤ packedOffset size live first + second := by
  obtain ⟨before, after, rfl, hfirst⟩ := h.split hf
  rcases List.mem_append.mp hs with hbefore | hrest
  · have hlt : second < first :=
      (List.pairwise_append.mp h.ordered).2.2 second hbefore first List.mem_cons_self
    omega
  rcases List.mem_cons.mp hrest with rfl | hafter
  · exact Nat.le_refl _
  obtain ⟨middle, rest, rfl⟩ := List.append_of_mem hafter
  have hsecond : packedOffset size (before ++ first :: (middle ++ second :: rest)) second =
      (before ++ first :: middle).length * size.bytes := h.packedOffset_getElem (by simp)
  have hpart : Ascending size (first :: middle ++ [second]) := by
    refine h.sublist (List.sublist_append_of_sublist_right ?_)
    simp
  -- the blocks from the first up to the second need the room between the two
  have hroom := hpart.add_length_mul_le_of_concat hle fun _ => hpart.of_append.head_le
  rw [hfirst, hsecond, List.length_append, Nat.add_mul]
  omega

theorem settled_le_length : settled size live ≤ live.length := List.findIdx_le_length

theorem packedOffset_eq_of_lt_settled (hget : live[index]? = some offset)
    (hlt : index < settled size live) : packedOffset size live offset = offset := by
  obtain ⟨-, rfl⟩ := List.getElem?_eq_some_iff.mp hget
  simpa using List.not_of_lt_findIdx hlt

/-- **The blocks that move are those behind the first hole.** -/
theorem Ascending.packedOffset_ne_iff (h : Ascending size live)
    (hget : live[index]? = some offset) :
    packedOffset size live offset ≠ offset ↔ settled size live ≤ index := by
  obtain ⟨hlength, hoffset⟩ := List.getElem?_eq_some_iff.mp hget
  refine ⟨fun hmoves => ?_, fun hle => ?_⟩
  · by_contra hlt
    exact hmoves (packedOffset_eq_of_lt_settled hget (Nat.lt_of_not_le hlt))
  · -- the first block that moves lies here or in front of here
    have hfirst : settled size live < live.length := Nat.lt_of_le_of_lt hle hlength
    have hmoves : packedOffset size live live[settled size live] ≠ live[settled size live] :=
      of_decide_eq_true (List.findIdx_getElem (w := hfirst))
    have hbehind : live[settled size live] ≤ offset := by
      rcases Nat.eq_or_lt_of_le hle with heq | hlt
      · exact Nat.le_of_eq (by simp only [heq, hoffset])
      · rw [← hoffset]
        exact Nat.le_of_lt (List.pairwise_iff_getElem.mp h.ordered _ _ hfirst hlength hlt)
    have hplace := h.packedOffset_le live[settled size live]
    have hway := h.packedOffset_add_le_add (List.getElem_mem hfirst)
      (List.mem_of_getElem? hget) hbehind
    omega

theorem packedOffset_eq_of_mem_take (ho : offset ∈ live.take (settled size live)) :
    packedOffset size live offset = offset := by
  obtain ⟨index, hlt, hget⟩ := List.mem_take_iff_getElem.mp ho
  have hoffset : live[index]? = some offset := by rw [List.getElem?_eq_getElem (by omega), hget]
  exact packedOffset_eq_of_lt_settled hoffset (by omega)

theorem Ascending.filter_ne_eq_drop (h : Ascending size live) :
    live.filter (fun offset => packedOffset size live offset ≠ offset) =
      live.drop (settled size live) := by
  have hback : ∀ offset ∈ live.drop (settled size live),
      packedOffset size live offset ≠ offset := by
    intro offset ho
    obtain ⟨index, hlt, hget⟩ := List.mem_drop_iff_getElem.mp ho
    have hoffset : live[settled size live + index]? = some offset := by
      rw [List.getElem?_eq_getElem (by omega), hget]
    exact (h.packedOffset_ne_iff hoffset).mpr (Nat.le_add_right _ _)
  calc live.filter (fun offset => packedOffset size live offset ≠ offset)
    _ = (live.take (settled size live) ++ live.drop (settled size live)).filter
          (fun offset => packedOffset size live offset ≠ offset) := by
        rw [List.take_append_drop]
    _ = [] ++ live.drop (settled size live) := by
        rw [List.filter_append, List.filter_eq_nil_iff.mpr, List.filter_eq_self.mpr]
        · simpa using hback
        · simpa using fun offset ho => packedOffset_eq_of_mem_take ho
    _ = live.drop (settled size live) := List.nil_append _

/-- The blocks that are taken elsewhere are the last ones. -/
theorem Ascending.shifts_eq_map_drop (h : Ascending size live) :
    shifts size live = (live.drop (settled size live)).map
      fun source => ⟨source, packedOffset size live source⟩ := by
  rw [shifts, h.filter_ne_eq_drop]

theorem Ascending.settled_add_length_shifts (h : Ascending size live) :
    settled size live + (shifts size live).length = live.length := by
  have hle : settled size live ≤ live.length := settled_le_length
  rw [h.shifts_eq_map_drop, List.length_map, List.length_drop]
  omega

/-- **The settled blocks are the first of the buffer**, up to the first that is not live. -/
theorem Ascending.isGreatest_settled (h : Ascending size live) :
    IsGreatest {count | ∀ index < count, index * size.bytes ∈ live} (settled size live) := by
  constructor
  · intro index hlt
    have hlength : index < live.length := Nat.lt_of_lt_of_le hlt settled_le_length
    have hget : live[index]? = some live[index] := List.getElem?_eq_getElem hlength
    rw [← h.packedOffset_getElem hget, packedOffset_eq_of_lt_settled hget hlt]
    exact List.mem_of_getElem? hget
  · intro count hcount
    by_contra hlt
    -- a block at the place of the first hole is packed to where it lies, so it is settled itself
    obtain ⟨index, hlength, hoffset⟩ :=
      List.getElem_of_mem (hcount (settled size live) (Nat.lt_of_not_le hlt))
    have hget : live[index]? = some (settled size live * size.bytes) := by
      rw [List.getElem?_eq_getElem hlength, hoffset]
    have hplace := h.packedOffset_getElem hget
    have hpos := size.bytes_pos
    by_cases hle : settled size live ≤ index
    · have hmoves := (h.packedOffset_ne_iff hget).mpr hle
      have hfront := h.packedOffset_le (settled size live * size.bytes)
      have hbehind := Nat.mul_le_mul_right size.bytes hle
      omega
    · have hstays := packedOffset_eq_of_lt_settled hget (Nat.lt_of_not_le hle)
      rw [hplace] at hstays
      exact hle (Nat.le_of_eq (Nat.eq_of_mul_eq_mul_right hpos hstays).symm)

end Order

/-! ## Counting slots -/

/-- A list without repetitions counts what is in it. -/
theorem ncard_setOf_mem {live : List Nat} (h : live.Nodup) :
    {offset | offset ∈ live}.ncard = live.length := by
  rw [← List.coe_toFinset, Set.ncard_coe_finset, List.toFinset_card_of_nodup h]

namespace Memory

variable {size : BlockSize} {memory : Memory}

theorem getElem?_slots_gathered {slot offset : Nat}
    (hslot : memory.slots[slot]? = some (some offset)) :
    (memory.gathered size).slots[slot]? =
      some (some (packedOffset size memory.slots.live offset)) := by
  rw [gathered, Array.getElem?_map, hslot, Option.map_some, Option.map_some]

theorem slot_gathered_ne_iff {slot offset : Nat}
    (hslot : memory.slots[slot]? = some (some offset)) :
    (memory.gathered size).slots[slot]? ≠ memory.slots[slot]? ↔
      packedOffset size memory.slots.live offset ≠ offset := by
  rw [getElem?_slots_gathered hslot, hslot]
  simp

/-- The offsets whose slots change are those of the blocks that are taken elsewhere. -/
theorem mem_filter_live_iff {offset : Nat} :
    (∃ slot : Nat, memory.slots[slot]? = some (some offset) ∧
        (memory.gathered size).slots[slot]? ≠ memory.slots[slot]?) ↔
      offset ∈ memory.slots.live.filter
        fun offset => packedOffset size memory.slots.live offset ≠ offset := by
  rw [List.mem_filter, Slots.mem_live, Array.mem_iff_getElem?, decide_eq_true_eq]
  refine ⟨fun h => ?_, fun h => ?_⟩
  · obtain ⟨slot, hslot, hchanged⟩ := h
    exact ⟨⟨slot, hslot⟩, (slot_gathered_ne_iff hslot).mp hchanged⟩
  · obtain ⟨⟨slot, hslot⟩, hmoves⟩ := h
    exact ⟨slot, hslot, (slot_gathered_ne_iff hslot).mpr hmoves⟩

theorem movedBlocks_account_eq_ncard :
    (memory.account size).movedBlocks =
      {offset | ∃ slot : Nat, memory.slots[slot]? = some (some offset) ∧
        (memory.gathered size).slots[slot]? ≠ memory.slots[slot]?}.ncard := by
  have hnodup : memory.slots.live.Nodup := memory.slots.pairwise_live.imp Nat.ne_of_lt
  simp only [mem_filter_live_iff]
  rw [ncard_setOf_mem (hnodup.filter _), account, shifts, List.length_map]

/-- A slot that changes held the offset of a block, and holds a smaller one. -/
theorem Valid.exists_lt_of_slot_ne (h : memory.Valid size) {slot : Nat}
    (hchanged : (memory.gathered size).slots[slot]? ≠ memory.slots[slot]?) :
    ∃ old new, memory.slots[slot]? = some (some old) ∧
      (memory.gathered size).slots[slot]? = some (some new) ∧ new < old := by
  cases hslot : memory.slots[slot]? with
  | none =>
      rw [Memory.gathered, Array.getElem?_map, hslot] at hchanged
      exact absurd rfl hchanged
  | some reference =>
      obtain ⟨old, rfl, -⟩ := h.sound reference (Array.mem_of_getElem? hslot)
      have hmoves := (slot_gathered_ne_iff hslot).mp hchanged
      have hle := h.ascending.packedOffset_le old
      exact ⟨old, _, rfl, getElem?_slots_gathered hslot, Nat.lt_of_le_of_ne hle hmoves⟩

end Memory

/--
**A report counts what happened.**

Suppose a pass over a buffer that is not empty succeeds, and let `live` list the offsets that the
slots held, each once and in ascending order. The report counts these offsets, gives as live bytes
what their blocks take up, and as freed bytes the rest of the buffer.

Let `front` be the greatest number such that the first `front` blocks of the buffer were all
designated by slots. The report counts the others of the live blocks as moved: of the offsets in
`live` the first `front` are still in the slots that held them, and no other is. This is also the
number of different offsets that have been replaced in some slot. A slot that has changed holds a
smaller offset, and no more bytes were moved than are live.
-/
theorem compact_report_counts {size : BlockSize} {memory : Memory} {report : Report}
    {live : List Nat} (hne : memory.buffer.size ≠ 0)
    (h : (memory.compact size).result = .ok report) (hordered : live.Pairwise (· < ·))
    (hlive : ∀ offset, offset ∈ live ↔ some offset ∈ memory.slots) :
    report.liveBlocks = {offset | some offset ∈ memory.slots}.ncard ∧
      report.liveBytes = report.liveBlocks * size.bytes ∧
      report.liveBytes + report.freedBytes = memory.buffer.size ∧
      (∃ front, IsGreatest {count | ∀ index < count, some (index * size.bytes) ∈ memory.slots}
          front ∧
        front + report.movedBlocks = report.liveBlocks ∧
        ∀ slot index offset : Nat, live[index]? = some offset →
          memory.slots[slot]? = some (some offset) →
          ((memory.compact size).memory.slots[slot]? ≠ memory.slots[slot]? ↔ front ≤ index)) ∧
      report.movedBlocks = {offset | ∃ slot : Nat, memory.slots[slot]? = some (some offset) ∧
        (memory.compact size).memory.slots[slot]? ≠ memory.slots[slot]?}.ncard ∧
      (∀ slot : Nat, (memory.compact size).memory.slots[slot]? ≠ memory.slots[slot]? →
        ∃ old new, memory.slots[slot]? = some (some old) ∧
          (memory.compact size).memory.slots[slot]? = some (some new) ∧ new < old) ∧
      report.movedBytes ≤ report.liveBytes ∧
      report.liveBytes ≤ memory.buffer.size := by
  obtain ⟨hvalid, rfl, hafter⟩ := Memory.compact_of_ok hne h
  obtain rfl : live = memory.slots.live := Slots.eq_live hordered hlive
  have hcount := hvalid.ascending.settled_add_length_shifts
  have hroom := hvalid.length_live_mul_le
  rw [hafter]
  refine ⟨?_, rfl, Nat.add_sub_cancel' hroom, ⟨settled size memory.slots.live, ?_, hcount, ?_⟩,
    Memory.movedBlocks_account_eq_ncard, fun slot => hvalid.exists_lt_of_slot_ne, ?_, hroom⟩
  · simp only [← hlive]
    exact (ncard_setOf_mem (hordered.imp Nat.ne_of_lt)).symm
  · simpa only [← hlive] using hvalid.ascending.isGreatest_settled
  · intro slot index offset hget hslot
    exact (Memory.slot_gathered_ne_iff hslot).trans (hvalid.ascending.packedOffset_ne_iff hget)
  · refine Nat.mul_le_mul_right _ ?_
    show (shifts size memory.slots.live).length ≤ memory.slots.live.length
    omega

/-- Two blocks in their places, and two holes with a block behind each. -/
def Memory.holed : Memory where
  buffer := #[5, 0, 7, 8, 9, 9, 1, 2, 0, 0, 3, 4]
  slots := #[some 10, some 0, some 6, some 2, some 10]

theorem compact_report_counts_holed :
    {offset | some offset ∈ Memory.holed.slots}.ncard = 4 ∧
      IsGreatest {count | ∀ index < count, some (index * 2) ∈ Memory.holed.slots} 2 ∧
      {offset | ∃ slot : Nat, Memory.holed.slots[slot]? = some (some offset) ∧
        (Memory.holed.compact .two).memory.slots[slot]? ≠ Memory.holed.slots[slot]?}.ncard = 2 ∧
      (Memory.holed.compact .two).memory.slots[3]? = Memory.holed.slots[3]? ∧
      (Memory.holed.compact .two).memory.slots[2]? ≠ Memory.holed.slots[2]? := by
  have hresult : (Memory.holed.compact .two).result =
      .ok { blockSize := .two, liveBlocks := 4, movedBlocks := 2, liveBytes := 8,
            freedBytes := 4 } := rfl
  have hlive : ∀ offset, offset ∈ [0, 2, 6, 10] ↔ some offset ∈ Memory.holed.slots := by
    intro offset
    simp only [Memory.holed, List.mem_cons, List.not_mem_nil, List.mem_toArray, Option.some.injEq,
      or_false]
    omega
  obtain ⟨hcount, -, -, ⟨front, hfront, hmoved, hslots⟩, hchanged, -⟩ :=
    compact_report_counts (by decide) hresult (by decide) hlive
  obtain rfl : front = 2 := Nat.add_right_cancel hmoved
  refine ⟨hcount.symm, hfront, hchanged.symm, ?_, ?_⟩
  · exact not_not.mp fun hne => absurd ((hslots 3 1 2 rfl rfl).mp hne) (by decide)
  · exact (hslots 2 2 6 rfl rfl).mpr (Nat.le_refl 2)

end Compaction

import Compaction.Proofs.Acceptance
import Mathlib.Data.List.Dedup
import Mathlib.Data.List.Sort

/-!
# Where packed blocks come to lie

The blocks that slots designate are packed in ascending order of their offsets, so the block that
has `n` live blocks before it ends up at `n` times the width of a block. This file is about that
arithmetic alone: about lists of offsets, in order and on boundaries, and about the bytes of such
blocks put one after the other. Nothing in it is overwritten and no step follows another.

The one fact that makes packing in place possible is `Ascending.length_mul_le`: blocks that are in
order, distinct and on boundaries need all the room before the next one, so their packed copies end
where it starts or before.
-/

namespace Compaction

/-- The offsets that slots hold, each once and in ascending order. -/
def Slots.live (slots : Slots) : List Nat :=
  (slots.toList.filterMap id).dedup.insertionSort (· ≤ ·)

/--
Where the block at `offset` comes to lie when the blocks at the offsets in `live` are packed in the
order of that list. Other offsets stay what they are.
-/
def packedOffset (size : BlockSize) (live : List Nat) (offset : Nat) : Nat :=
  if offset ∈ live then live.idxOf offset * size.bytes else offset

/-- The blocks that packing takes elsewhere, first to last. -/
def shifts (size : BlockSize) (live : List Nat) : List Move :=
  (live.filter fun source => packedOffset size live source ≠ source).map
    fun source => ⟨source, packedOffset size live source⟩

/-- The bytes of the blocks at the given offsets, one block after the other. -/
def Buffer.blocks (size : BlockSize) (buffer : Buffer) (offsets : List Nat) : List UInt8 :=
  offsets.flatMap fun offset => buffer.slice offset size.bytes

/-! ## The offsets that slots hold -/

theorem Slots.mem_live {slots : Slots} {offset : Nat} :
    offset ∈ slots.live ↔ some offset ∈ slots := by
  simp [Slots.live]

theorem Slots.pairwise_live (slots : Slots) : slots.live.Pairwise (· < ·) := by
  have hsorted : slots.live.Pairwise (· ≤ ·) := List.pairwise_insertionSort _ _
  have hnodup : slots.live.Nodup :=
    (List.perm_insertionSort _ _).nodup_iff.mpr (List.nodup_dedup _)
  exact hsorted.imp₂ (fun _ _ hle hne => Nat.lt_of_le_of_ne hle hne) hnodup

/-- A list that holds the same offsets in ascending order is the same list. -/
theorem Slots.eq_live {slots : Slots} {offsets : List Nat} (h : offsets.Pairwise (· < ·))
    (hmem : ∀ offset, offset ∈ offsets ↔ some offset ∈ slots) : offsets = slots.live :=
  h.eq_of_mem_iff slots.pairwise_live fun offset => (hmem offset).trans Slots.mem_live.symm

theorem Slots.live_singleton (offset : Nat) : Slots.live #[some offset] = [offset] := by
  refine (Slots.eq_live (List.pairwise_singleton _ offset) fun other => ?_).symm
  simp

/-! ## Blocks in order -/

/-- Offsets of different blocks, in the order the blocks are packed in. -/
structure Ascending (size : BlockSize) (live : List Nat) : Prop where
  /-- Each offset lies before the next one. -/
  ordered : live.Pairwise (· < ·)
  /-- Each offset is that of a block. -/
  aligned : ∀ offset ∈ live, size.Aligned offset

section Order

variable {size : BlockSize} {live : List Nat}

theorem Ascending.sublist {kept : List Nat} (h : Ascending size live) (hs : kept.Sublist live) :
    Ascending size kept :=
  ⟨h.ordered.sublist hs, fun offset ho => h.aligned offset (hs.subset ho)⟩

theorem Ascending.of_append {done rest : List Nat} (h : Ascending size (done ++ rest)) :
    Ascending size done :=
  h.sublist (List.sublist_append_left done rest)

theorem BlockSize.Aligned.add_bytes_le {first second : Nat} (hf : size.Aligned first)
    (hs : size.Aligned second) (h : first < second) : first + size.bytes ≤ second := by
  obtain ⟨i, rfl⟩ := hf
  obtain ⟨j, rfl⟩ := hs
  have hij : i + 1 ≤ j := Nat.lt_of_mul_lt_mul_left h
  calc size.bytes * i + size.bytes = size.bytes * (i + 1) := by rw [Nat.mul_succ]
    _ ≤ size.bytes * j := Nat.mul_le_mul_left _ hij

/-- Blocks that lie between two places need the room between them. -/
theorem Ascending.add_length_mul_le {low high : Nat} (h : Ascending size live) (hle : low ≤ high)
    (hlow : ∀ offset ∈ live, low ≤ offset)
    (hhigh : ∀ offset ∈ live, offset + size.bytes ≤ high) :
    low + live.length * size.bytes ≤ high := by
  induction live generalizing low with
  | nil => simpa using hle
  | cons first rest ih =>
      obtain ⟨hfirst, -⟩ := List.forall_mem_cons.mp hlow
      obtain ⟨hend, hrest⟩ := List.forall_mem_cons.mp hhigh
      -- the others lie behind the end of the first
      have hbehind : ∀ offset ∈ rest, first + size.bytes ≤ offset := by
        intro offset ho
        have hlt : first < offset := (List.pairwise_cons.mp h.ordered).1 offset ho
        exact (h.aligned first List.mem_cons_self).add_bytes_le
          (h.aligned offset (List.mem_cons_of_mem _ ho)) hlt
      have hroom : first + size.bytes + rest.length * size.bytes ≤ high :=
        ih (h.sublist (List.sublist_cons_self first rest)) hend hbehind hrest
      rw [List.length_cons, Nat.succ_mul]
      omega

theorem Ascending.head_le {first offset : Nat} {rest : List Nat}
    (h : Ascending size (first :: rest)) (ho : offset ∈ first :: rest) : first ≤ offset := by
  rcases List.mem_cons.mp ho with rfl | hrest
  · exact Nat.le_refl _
  · exact Nat.le_of_lt ((List.pairwise_cons.mp h.ordered).1 offset hrest)

/-- Blocks behind a place and in front of another block need the room between the two. -/
theorem Ascending.add_length_mul_le_of_concat {low source : Nat} {done : List Nat}
    (h : Ascending size (done ++ [source])) (hle : low ≤ source)
    (hlow : ∀ offset ∈ done, low ≤ offset) : low + done.length * size.bytes ≤ source := by
  have hsource : source ∈ done ++ [source] :=
    List.mem_append_right _ (List.mem_singleton_self _)
  refine h.of_append.add_length_mul_le hle hlow fun offset ho => ?_
  have hlt : offset < source :=
    (List.pairwise_append.mp h.ordered).2.2 offset ho source (List.mem_singleton_self _)
  exact (h.aligned offset (List.mem_append_left _ ho)).add_bytes_le (h.aligned source hsource) hlt

/-- **Packed blocks end where the next block starts, or before.** -/
theorem Ascending.length_mul_le {done : List Nat} {source : Nat}
    (h : Ascending size (done ++ [source])) : done.length * size.bytes ≤ source := by
  have hroom := h.add_length_mul_le_of_concat (Nat.zero_le source) fun _ _ => Nat.zero_le _
  rwa [Nat.zero_add] at hroom

theorem Ascending.packedOffset_getElem (h : Ascending size live) {index offset : Nat}
    (hget : live[index]? = some offset) : packedOffset size live offset = index * size.bytes := by
  obtain ⟨hlt, rfl⟩ := List.getElem?_eq_some_iff.mp hget
  have hnodup : live.Nodup := h.ordered.imp Nat.ne_of_lt
  rw [packedOffset, if_pos (List.getElem_mem hlt), hnodup.idxOf_getElem]

/-- A live block splits the list into those packed before it and those packed after it. -/
theorem Ascending.split (h : Ascending size live) {offset : Nat} (ho : offset ∈ live) :
    ∃ before after, live = before ++ offset :: after ∧
      packedOffset size live offset = before.length * size.bytes := by
  obtain ⟨before, after, rfl⟩ := List.append_of_mem ho
  exact ⟨before, after, rfl, h.packedOffset_getElem (by simp)⟩

theorem aligned_packedOffset {offset : Nat} (ho : offset ∈ live) :
    size.Aligned (packedOffset size live offset) := by
  rw [packedOffset, if_pos ho]
  exact Nat.dvd_mul_left _ _

/-- No block is packed behind the place it came from. -/
theorem Ascending.packedOffset_le (h : Ascending size live) (offset : Nat) :
    packedOffset size live offset ≤ offset := by
  by_cases ho : offset ∈ live
  · obtain ⟨before, after, rfl, heq⟩ := h.split ho
    have hfront : Ascending size (before ++ [offset]) := by
      rw [List.append_cons] at h
      exact h.of_append
    exact heq ▸ hfront.length_mul_le
  · rw [packedOffset, if_neg ho]

theorem packedOffset_add_le {offset : Nat} (ho : offset ∈ live) :
    packedOffset size live offset + size.bytes ≤ live.length * size.bytes := by
  have hlt : live.idxOf offset + 1 ≤ live.length := List.idxOf_lt_length_of_mem ho
  rw [packedOffset, if_pos ho, ← Nat.succ_mul]
  exact Nat.mul_le_mul_right _ hlt

theorem Ascending.packedOffset_lt (h : Ascending size live) {first second : Nat}
    (hf : first ∈ live) (hs : second ∈ live) (hlt : first < second) :
    packedOffset size live first < packedOffset size live second := by
  obtain ⟨i, hi, rfl⟩ := List.getElem_of_mem hf
  obtain ⟨j, hj, rfl⟩ := List.getElem_of_mem hs
  have hij : i < j := by
    rcases Nat.lt_trichotomy i j with hij | rfl | hji
    · exact hij
    · exact absurd hlt (Nat.lt_irrefl _)
    · have hgt := List.pairwise_iff_getElem.mp h.ordered j i hj hi hji
      exact absurd hlt (Nat.lt_asymm hgt)
  rw [h.packedOffset_getElem (List.getElem?_eq_getElem hi),
    h.packedOffset_getElem (List.getElem?_eq_getElem hj)]
  exact Nat.mul_lt_mul_of_pos_right hij size.bytes_pos

/-- Packing neither parts nor joins blocks, and keeps their order. -/
theorem Ascending.compare_packedOffset (h : Ascending size live) {first second : Nat}
    (hf : first ∈ live) (hs : second ∈ live) :
    compare (packedOffset size live first) (packedOffset size live second) =
      compare first second := by
  rcases Nat.lt_trichotomy first second with hlt | rfl | hgt
  · rw [Nat.compare_eq_lt.mpr hlt, Nat.compare_eq_lt.mpr (h.packedOffset_lt hf hs hlt)]
  · rw [Nat.compare_eq_eq.mpr rfl, Nat.compare_eq_eq.mpr rfl]
  · rw [Nat.compare_eq_gt.mpr hgt, Nat.compare_eq_gt.mpr (h.packedOffset_lt hs hf hgt)]

/-- Packed blocks take the places from the front on, one after the other. -/
theorem Ascending.map_packedOffset (h : Ascending size live) :
    live.map (packedOffset size live) = (List.range live.length).map (· * size.bytes) := by
  refine List.ext_getElem? fun index => ?_
  rw [List.getElem?_map, List.getElem?_map]
  by_cases hlt : index < live.length
  · have hget : live[index]? = some live[index] := List.getElem?_eq_getElem hlt
    rw [List.getElem?_range hlt, hget, Option.map_some, Option.map_some,
      h.packedOffset_getElem hget]
  · rw [List.getElem?_eq_none (by omega), List.getElem?_eq_none (by rw [List.length_range]; omega)]
    rfl

/-- One more block is packed behind the others, which stay where they are. -/
theorem packedOffset_concat {done : List Nat} {source : Nat} (h : source ∉ done) (offset : Nat) :
    packedOffset size (done ++ [source]) offset =
      if offset = source then done.length * size.bytes else packedOffset size done offset := by
  unfold packedOffset
  by_cases heq : offset = source
  · subst heq
    rw [if_pos rfl, if_pos (by simp), List.idxOf_append_of_notMem h, List.idxOf_cons_self,
      Nat.add_zero]
  · rw [if_neg heq]
    by_cases ho : offset ∈ done
    · rw [if_pos ho, if_pos (List.mem_append_left _ ho), List.idxOf_append_of_mem ho]
    · rw [if_neg ho, if_neg (by simp [ho, heq])]

theorem shifts_concat {done : List Nat} {source : Nat} (h : source ∉ done) :
    shifts size (done ++ [source]) =
      shifts size done ++
        if done.length * size.bytes = source then [] else [⟨source, done.length * size.bytes⟩] := by
  have hsame : ∀ offset ∈ done,
      packedOffset size (done ++ [source]) offset = packedOffset size done offset := by
    intro offset ho
    rw [packedOffset_concat h, if_neg fun heq : offset = source => h (heq ▸ ho)]
  have hlast : packedOffset size (done ++ [source]) source = done.length * size.bytes := by
    rw [packedOffset_concat h, if_pos rfl]
  rw [shifts, List.filter_append, List.map_append]
  congr 1
  · rw [shifts, List.filter_congr fun offset ho => by rw [hsame offset ho]]
    refine List.map_congr_left fun offset ho => ?_
    rw [hsame offset (List.mem_of_mem_filter ho)]
  · by_cases heq : done.length * size.bytes = source
    · simp [hlast, heq]
    · simp [hlast, heq]

end Order

/-! ## The bytes of blocks -/

namespace Buffer

variable {size : BlockSize} {buffer : Buffer}

theorem slice_eq (offset width : Nat) :
    buffer.slice offset width = (buffer.toList.drop offset).take width := by
  rw [slice, Array.toList_extract, List.extract_eq_take_drop, Nat.add_sub_cancel_left]

@[simp] theorem blocks_nil : buffer.blocks size [] = [] := rfl

@[simp] theorem blocks_append (first second : List Nat) :
    buffer.blocks size (first ++ second) = buffer.blocks size first ++ buffer.blocks size second :=
  List.flatMap_append

@[simp] theorem blocks_cons (offset : Nat) (rest : List Nat) :
    buffer.blocks size (offset :: rest) =
      buffer.slice offset size.bytes ++ buffer.blocks size rest := rfl

theorem length_blocks {offsets : List Nat}
    (h : ∀ offset ∈ offsets, offset + size.bytes ≤ buffer.size) :
    (buffer.blocks size offsets).length = offsets.length * size.bytes := by
  induction offsets with
  | nil => simp
  | cons offset rest ih =>
      obtain ⟨hoffset, hrest⟩ := List.forall_mem_cons.mp h
      rw [blocks_cons, List.length_append, length_slice hoffset, ih hrest, List.length_cons,
        Nat.succ_mul, Nat.add_comm]

end Buffer

/-! ## The memory put together -/

namespace Memory

/-- The account of packing the blocks that slots designate. -/
def account (size : BlockSize) (memory : Memory) : Report where
  blockSize := size
  liveBlocks := memory.slots.live.length
  movedBlocks := (shifts size memory.slots.live).length
  liveBytes := memory.slots.live.length * size.bytes
  freedBytes := memory.buffer.size - memory.slots.live.length * size.bytes

/--
The memory with the blocks that slots designate at its front, zeros behind them, and every slot
referring to where its block has come to lie.
-/
def gathered (size : BlockSize) (memory : Memory) : Memory where
  buffer := (memory.buffer.blocks size memory.slots.live ++
    List.replicate (memory.buffer.size - memory.slots.live.length * size.bytes) 0).toArray
  slots := memory.slots.map (Option.map (packedOffset size memory.slots.live))

variable {size : BlockSize} {memory : Memory}

theorem Valid.hasBlock_live (h : memory.Valid size) {offset : Nat}
    (ho : offset ∈ memory.slots.live) : memory.buffer.HasBlock size offset :=
  h.hasBlock (Slots.mem_live.mp ho)

theorem Valid.ascending (h : memory.Valid size) : Ascending size memory.slots.live :=
  ⟨memory.slots.pairwise_live, fun _ ho => (h.hasBlock_live ho).aligned⟩

theorem Valid.length_blocks (h : memory.Valid size) :
    (memory.buffer.blocks size memory.slots.live).length =
      memory.slots.live.length * size.bytes :=
  Buffer.length_blocks fun _ ho => (h.hasBlock_live ho).inside

theorem Valid.length_live_mul_le (h : memory.Valid size) :
    memory.slots.live.length * size.bytes ≤ memory.buffer.size := by
  have hroom := h.ascending.add_length_mul_le (Nat.zero_le memory.buffer.size)
    (fun _ _ => Nat.zero_le _) fun _ ho => (h.hasBlock_live ho).inside
  rwa [Nat.zero_add] at hroom

@[simp] theorem size_slots_gathered : (memory.gathered size).slots.size = memory.slots.size :=
  Array.size_map

theorem Valid.size_gathered (h : memory.Valid size) :
    (memory.gathered size).buffer.size = memory.buffer.size := by
  have hroom := h.length_live_mul_le
  simp only [gathered, List.size_toArray, List.length_append, h.length_blocks,
    List.length_replicate]
  omega

/-- **The packed copy of a block holds the bytes of the block.** -/
theorem Valid.slice_gathered (h : memory.Valid size) {offset : Nat}
    (ho : offset ∈ memory.slots.live) :
    (memory.gathered size).buffer.slice (packedOffset size memory.slots.live offset) size.bytes =
      memory.buffer.slice offset size.bytes := by
  obtain ⟨before, after, hlive, hplace⟩ := h.ascending.split ho
  have hbefore : (memory.buffer.blocks size before).length = before.length * size.bytes :=
    Buffer.length_blocks fun o ho => (h.hasBlock_live (by simp [hlive, ho])).inside
  have hblock : (memory.buffer.slice offset size.bytes).length = size.bytes :=
    Buffer.length_slice (h.hasBlock_live ho).inside
  rw [hplace, Buffer.slice_eq]
  simp only [gathered, hlive, Buffer.blocks_append, Buffer.blocks_cons, List.append_assoc]
  rw [List.drop_left' hbefore, List.take_left' hblock]

end Memory

end Compaction

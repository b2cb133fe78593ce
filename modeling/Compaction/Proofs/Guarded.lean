import Compaction.Proofs.InPlace

/-!
# A pass stays inside its memory

The operations of a pass are total: an index past the end of the buffer reads nothing, a write there
has no effect, and a difference below zero is zero. On a machine each of these would end the pass in
the middle, with half of the blocks moved. Here the same steps are taken once more with a guard in
front of every index, every range and every sum or difference of words, and a guard that fails is a
`Trap`. No guard ever fails: the guarded pass returns what the pass returns.

Most of it is one condition at every turn of the loop, `Relocation.Ready`. It comes from the
invariant `Relocation.Packs` and says that the block to be packed lies behind the packed ones, so
that a copy never overlaps the block it is made from, and inside the buffer.
-/

namespace Compaction

/-- Why a computation cannot go on. -/
inductive Trap where
  /-- The sum does not fit into a word of 64 bits. -/
  | overflow (first second : Nat)
  /-- The difference is below zero. -/
  | underflow (minuend subtrahend : Nat)
  /-- There is no remainder of a division by zero. -/
  | zeroDivisor (dividend : Nat)
  /-- There are only `length` elements. -/
  | index (index length : Nat)
  /-- What is asked for is no range of `length` elements. -/
  | range (first last length : Nat)
  deriving DecidableEq, Repr

/-! ## The guarded pass -/

namespace Guarded

/-! Of a guarded computation the outer result says whether a guard has failed. -/

def add (first second : Nat) : Except Trap Nat :=
  if first + second < UInt64.size then .ok (first + second) else .error (.overflow first second)

def sub (minuend subtrahend : Nat) : Except Trap Nat :=
  if subtrahend ≤ minuend then .ok (minuend - subtrahend)
  else .error (.underflow minuend subtrahend)

def mod (dividend divisor : Nat) : Except Trap Nat :=
  if divisor = 0 then .error (.zeroDivisor dividend) else .ok (dividend % divisor)

def byteAt (buffer : Buffer) (index : Nat) : Except Trap UInt8 :=
  match buffer[index]? with
  | some byte => .ok byte
  | none => .error (.index index buffer.size)

/-- The bytes from `first` up to `last`. -/
def slice (buffer : Buffer) (first last : Nat) : Except Trap (List UInt8) :=
  if first ≤ last ∧ last ≤ buffer.size then .ok (buffer.slice first (last - first))
  else .error (.range first last buffer.size)

/-- Writes the bytes over those at `offset`. -/
def overwrite (buffer : Buffer) (offset : Nat) (bytes : List UInt8) : Except Trap Buffer :=
  if offset + bytes.length ≤ buffer.size then .ok (buffer.overwrite offset bytes)
  else .error (.range offset (offset + bytes.length) buffer.size)

def clearFrom (buffer : Buffer) (start : Nat) : Except Trap Buffer :=
  if start ≤ buffer.size then .ok (buffer.clearFrom start)
  else .error (.range start buffer.size buffer.size)

def assign (slots : Slots) (target : Nat) : (holders : List Nat) → Except Trap Slots
  | [] => .ok slots
  | slot :: rest =>
    if slot < slots.size then assign (slots.setIfInBounds slot (some target)) target rest
    else .error (.index slot slots.size)

def checkLength (size : BlockSize) (length : Nat) : Except Trap (Except Fault Unit) :=
  if length < size.bytes then
    return .error (.bufferTooShort size.bytes length)
  else do
    let rest ← mod length size.bytes
    if rest = 0 then return .ok () else return .error (.unevenBuffer length size.bytes)

def resolve (size : BlockSize) (buffer : Buffer) (slot : Nat) :
    Reference → Except Trap (Except Fault Nat)
  | none => return .error (.nullReference slot)
  | some offset =>
    if buffer.size < size.bytes then
      return .error (.outOfBounds slot offset buffer.size)
    else do
      let last ← sub buffer.size size.bytes
      if last < offset then
        return .error (.outOfBounds slot offset buffer.size)
      else
        let rest ← mod offset size.bytes
        if rest ≠ 0 then
          return .error (.unaligned slot offset size.bytes)
        else
          let marker ← byteAt buffer offset
          if marker = 0 then return .error (.freeBlock slot offset) else return .ok offset

/-- The offsets that references designate, the first of them held in slot `start`. -/
def resolveFrom (size : BlockSize) (buffer : Buffer) (start : Nat) :
    List Reference → Except Trap (Except Fault (List Nat))
  | [] => return .ok []
  | reference :: rest => do
    match ← resolve size buffer start reference with
    | .error fault => return .error fault
    | .ok offset => return (← resolveFrom size buffer (start + 1) rest).map (offset :: ·)

/-- Copies the block at `source` to the end of the packed ones and counts it, unless it is there. -/
def moveBlock (size : BlockSize) (relocation : Relocation) (source : Nat) :
    Except Trap Relocation :=
  if relocation.packed = source then
    return relocation
  else do
    let last ← add source size.bytes
    let bytes ← slice relocation.memory.buffer source last
    let buffer ← overwrite relocation.memory.buffer relocation.packed bytes
    let _count ← add relocation.moves.size 1
    return { relocation with
      memory := { relocation.memory with buffer }
      moves := relocation.moves.push ⟨source, relocation.packed⟩ }

def place (size : BlockSize) (relocation : Relocation) (source : Nat) (holders : List Nat) :
    Except Trap Relocation := do
  let moved ← moveBlock size relocation source
  let slots ← assign moved.memory.slots relocation.packed holders
  let packed ← add relocation.packed size.bytes
  return { moved with memory := { moved.memory with slots }, packed }

def run (size : BlockSize) (relocation : Relocation) :
    List (Nat × Array Nat) → Except Trap Relocation
  | [] => return relocation
  | (source, holders) :: rest => do
    let next ← place size relocation source holders.toList
    run size next rest

def pack (size : BlockSize) (live : LiveIndex) (memory : Memory) : Except Trap Outcome := do
  let relocation ← run size { memory } live.toList
  let buffer ← clearFrom relocation.memory.buffer relocation.packed
  let freed ← sub buffer.size relocation.packed
  let report : Report :=
    { blockSize := size
      liveBlocks := live.size
      movedBlocks := relocation.moves.size
      liveBytes := relocation.packed
      freedBytes := freed }
  return {
    result := .ok report
    memory := { relocation.memory with buffer }
    journal := relocation.moves.toList.map .moved ++ [.finished buffer.size report] }

def compact (size : BlockSize) (memory : Memory) : Except Trap Outcome :=
  if memory.buffer.isEmpty then
    return .untouched memory size
  else do
    match ← checkLength size memory.buffer.size with
    | .error fault => return .rejected memory fault
    | .ok () =>
      match ← resolveFrom size memory.buffer 0 memory.slots.toList with
      | .error fault => return .rejected memory fault
      | .ok offsets => pack size (.ofOffsets offsets) memory

def compactWidth (width : Nat) (memory : Memory) : Except Trap Outcome :=
  if memory.buffer.isEmpty then
    return .untouched memory default
  else
    match BlockSize.ofWidth width with
    | .error fault => return .rejected memory fault
    | .ok size => compact size memory

def block (size : BlockSize) (memory : Memory) (reference : Reference) :
    Except Trap (Except Fault (List UInt8)) := do
  match ← checkLength size memory.buffer.size with
  | .error fault => return .error fault
  | .ok () =>
    match ← resolve size memory.buffer 0 reference with
    | .error fault => return .error fault
    | .ok offset =>
      let last ← add offset size.bytes
      return .ok (← slice memory.buffer offset last)

/-! ## Guards that hold -/

section Guards

variable {buffer : Buffer}

theorem add_eq {first second : Nat} (h : first + second < UInt64.size) :
    add first second = pure (first + second) := if_pos h

theorem sub_eq {minuend subtrahend : Nat} (h : subtrahend ≤ minuend) :
    sub minuend subtrahend = pure (minuend - subtrahend) := if_pos h

theorem mod_bytes_eq (size : BlockSize) (dividend : Nat) :
    mod dividend size.bytes = pure (dividend % size.bytes) := if_neg (Nat.ne_of_gt size.bytes_pos)

theorem byteAt_eq {index : Nat} (h : index < buffer.size) :
    byteAt buffer index = pure buffer[index] := by
  rw [byteAt, Array.getElem?_eq_getElem h]
  rfl

theorem slice_eq {offset width : Nat} (h : offset + width ≤ buffer.size) :
    slice buffer offset (offset + width) = pure (buffer.slice offset width) := by
  rw [slice, if_pos ⟨Nat.le_add_right _ _, h⟩, Nat.add_sub_cancel_left]
  rfl

theorem overwrite_eq {offset : Nat} {bytes : List UInt8} (h : offset + bytes.length ≤ buffer.size) :
    overwrite buffer offset bytes = pure (buffer.overwrite offset bytes) := if_pos h

theorem clearFrom_eq {start : Nat} (h : start ≤ buffer.size) :
    clearFrom buffer start = pure (buffer.clearFrom start) := if_pos h

theorem assign_eq {slots : Slots} {target : Nat} {holders : List Nat}
    (h : ∀ slot ∈ holders, slot < slots.size) :
    assign slots target holders = pure (slots.assign target holders) := by
  induction holders generalizing slots with
  | nil => rfl
  | cons slot rest ih =>
      obtain ⟨hslot, hrest⟩ := List.forall_mem_cons.mp h
      rw [assign, if_pos hslot, ih (by rwa [Array.size_setIfInBounds])]
      rfl

end Guards

/-! ## The checks -/

section Checks

variable {size : BlockSize} {buffer : Buffer}

theorem aligned_iff_mod_eq {offset : Nat} : size.Aligned offset ↔ offset % size.bytes = 0 :=
  Nat.dvd_iff_mod_eq_zero

theorem checkLength_eq (length : Nat) :
    checkLength size length = pure (size.checkLength length) := by
  rw [checkLength, BlockSize.checkLength]
  by_cases hshort : length < size.bytes
  · rw [if_pos hshort, if_pos hshort]
  · rw [if_neg hshort, if_neg hshort, mod_bytes_eq, pure_bind]
    by_cases heven : length % size.bytes = 0
    · rw [if_pos heven, if_pos (aligned_iff_mod_eq.mpr heven)]
    · rw [if_neg heven, if_neg (heven ∘ aligned_iff_mod_eq.mp)]

theorem resolve_eq (slot : Nat) (reference : Reference) :
    resolve size buffer slot reference = pure (Buffer.resolve size buffer slot reference) := by
  have hpos := size.bytes_pos
  cases reference with
  | none => rfl
  | some offset =>
      rw [resolve, Buffer.resolve]
      by_cases hshort : buffer.size < size.bytes
      · rw [if_pos hshort, if_pos (.inl hshort)]
      rw [if_neg hshort, sub_eq (Nat.le_of_not_lt hshort), pure_bind]
      by_cases hbeyond : buffer.size - size.bytes < offset
      · rw [if_pos hbeyond, if_pos (.inr hbeyond)]
      rw [if_neg hbeyond, if_neg (not_or.mpr ⟨hshort, hbeyond⟩), mod_bytes_eq, pure_bind]
      by_cases hrest : offset % size.bytes = 0
      · -- the marker is read last, when the offset is known to lie in the buffer
        have hinside : offset < buffer.size := by omega
        rw [if_neg (not_not_intro hrest), if_neg (not_not_intro (aligned_iff_mod_eq.mpr hrest)),
          byteAt_eq hinside, pure_bind, Array.getElem?_eq_getElem hinside]
        by_cases hmarker : buffer[offset] = 0
        · rw [if_pos hmarker, if_pos (congrArg some hmarker)]
        · rw [if_neg hmarker, if_neg (hmarker ∘ Option.some.inj)]
      · rw [if_pos hrest, if_pos (hrest ∘ aligned_iff_mod_eq.mp)]

theorem resolveFrom_eq (start : Nat) (references : List Reference) :
    resolveFrom size buffer start references =
      pure (Buffer.resolveFrom size buffer start references) := by
  induction references generalizing start with
  | nil => rfl
  | cons reference rest ih =>
      rw [resolveFrom, resolve_eq, pure_bind]
      cases hhead : Buffer.resolve size buffer start reference with
      | error fault => rw [Buffer.resolveFrom_cons_of_error hhead]
      | ok offset =>
          rw [Buffer.resolveFrom_cons_of_ok hhead]
          dsimp only
          rw [ih, pure_bind]

end Checks

end Guarded

/-! ## A turn of the loop -/

namespace Relocation

variable {size : BlockSize} {start : Memory} {done : List Nat} {relocation : Relocation}
  {source : Nat} {holders : List Nat}

/-- The relocation when the first `turn` live blocks have been packed. -/
def upTo (size : BlockSize) (live : LiveIndex) (memory : Memory) (turn : Nat) : Relocation :=
  (live.toList.take turn).foldl
    (fun relocation (source, holders) => relocation.place size source holders.toList) { memory }

/-- The block at `source`, which the slots in `holders` designate, can be packed. -/
structure Ready (size : BlockSize) (relocation : Relocation) (source : Nat) (holders : List Nat) :
    Prop where
  behind : relocation.packed ≤ source
  /-- The block goes where it is, or to bytes that end before it starts. -/
  apart : relocation.packed ≠ source → relocation.packed + size.bytes ≤ source
  inside : source + size.bytes ≤ relocation.memory.buffer.size
  held : ∀ slot ∈ holders, slot < relocation.memory.slots.size
  /-- No more blocks have been moved than have been packed. -/
  counted : relocation.moves.size ≤ relocation.packed
  /-- What was copied lies in front of the end of the packed blocks. -/
  written : ∀ move ∈ relocation.moves, move.target + size.bytes ≤ relocation.packed

theorem Packs.ready (h : Packs size start done relocation)
    (hlive : Ascending size (done ++ [source]))
    (hinside : ∀ offset ∈ done ++ [source], offset + size.bytes ≤ start.buffer.size)
    (hholders : ∀ slot ∈ holders, start.slots[slot]? = some (some source)) :
    relocation.Ready size source holders := by
  have hpos := size.bytes_pos
  have hfirst : done.length * size.bytes ≤ source := hlive.length_mul_le
  have hblocks : (start.buffer.blocks size done).length = done.length * size.bytes :=
    Buffer.length_blocks fun o ho => hinside o (List.mem_append_left _ ho)
  have hsource : source + size.bytes ≤ start.buffer.size := hinside source (by simp)
  refine ⟨?_, ?_, ?_, ?_, ?_, ?_⟩
  · rw [h.packed]
    exact hfirst
  · -- two boundaries that differ are at least one block apart
    intro hne
    rw [h.packed] at hne ⊢
    have haligned : size.Aligned (done.length * size.bytes) := Nat.dvd_mul_left _ _
    exact haligned.add_bytes_le (hlive.aligned source (by simp)) (by omega)
  · rw [h.size_buffer hblocks (by omega)]
    exact hsource
  · intro slot hslot
    rw [h.slots, Array.size_map]
    exact (Array.getElem?_eq_some_iff.mp (hholders slot hslot)).1
  · -- a block that has been moved has been packed, and takes one byte or more
    rw [h.packed, ← Array.length_toList, h.moves, shifts, List.length_map]
    calc (done.filter _).length ≤ done.length := List.length_filter_le _ _
      _ ≤ done.length * size.bytes := Nat.le_mul_of_pos_right _ hpos
  · intro move hmove
    rw [← Array.mem_toList_iff, h.moves] at hmove
    obtain ⟨offset, ho, rfl⟩ := List.mem_map.mp hmove
    rw [h.packed]
    exact packedOffset_add_le (List.mem_of_mem_filter ho)

theorem packs_upTo (h : start.Valid size) (turn : Nat) :
    Packs size start (start.slots.live.take turn)
      (upTo size (.ofOffsets start.offsets) start turn) := by
  have hpacks := packs_entries h (List.take_append_drop turn _).symm
  rwa [List.map_take, Std.TreeMap.map_fst_toList_eq_keys, start.keys_ofOffsets] at hpacks

/-- The blocks are met in the order in which they are packed. -/
theorem getElem?_live_of_entry {turn : Nat} {holders : Array Nat}
    (hentry : (LiveIndex.ofOffsets start.offsets).toList[turn]? = some (source, holders)) :
    start.slots.live[turn]? = some source := by
  rw [← start.keys_ofOffsets, ← Std.TreeMap.map_fst_toList_eq_keys, List.getElem?_map, hentry]
  rfl

theorem ready_upTo (h : start.Valid size) {turn : Nat} {holders : Array Nat}
    (hentry : (LiveIndex.ofOffsets start.offsets).toList[turn]? = some (source, holders)) :
    (upTo size (.ofOffsets start.offsets) start turn).Ready size source holders.toList := by
  have hnext : start.slots.live.take turn ++ [source] = start.slots.live.take (turn + 1) := by
    rw [List.take_add_one, getElem?_live_of_entry hentry, Option.toList_some]
  refine (packs_upTo h turn).ready ?_ ?_ ?_
  · rw [hnext]
    exact h.ascending.sublist (List.take_sublist _ _)
  · rw [hnext]
    exact fun offset ho => (h.hasBlock_live (List.mem_of_mem_take ho)).inside
  · exact fun slot hslot => (h.mem_holders_iff (List.mem_of_getElem? hentry) slot).mp hslot

theorem size_buffer_place :
    (relocation.place size source holders).memory.buffer.size = relocation.memory.buffer.size := by
  unfold place
  by_cases heq : relocation.packed = source
  · rw [if_pos heq]
    rfl
  · rw [if_neg heq]
    exact Buffer.size_overwrite _ _ _

end Relocation

namespace Guarded

variable {size : BlockSize} {relocation : Relocation} {source : Nat} {holders : List Nat}

theorem place_eq (h : relocation.Ready size source holders)
    (hword : relocation.memory.buffer.size < UInt64.size) :
    place size relocation source holders = pure (relocation.place size source holders) := by
  have hbehind := h.behind
  have hinside := h.inside
  have hcounted := h.counted
  have hpos := size.bytes_pos
  rw [place, Relocation.place, moveBlock]
  by_cases heq : relocation.packed = source
  · rw [if_pos heq, if_pos heq, pure_bind, assign_eq h.held, pure_bind, add_eq (by omega),
      pure_bind]
    rfl
  · -- no sum is past the end of the block, which lies in the buffer
    have hlength := Buffer.length_slice hinside
    rw [if_neg heq, if_neg heq, add_eq (by omega), pure_bind, slice_eq hinside, pure_bind,
      overwrite_eq (by omega), pure_bind, add_eq (by omega), pure_bind, pure_bind,
      assign_eq h.held, pure_bind, add_eq (by omega), pure_bind]
    rfl

theorem run_eq {entries : List (Nat × Array Nat)}
    (hword : relocation.memory.buffer.size < UInt64.size)
    (hready : ∀ turn source holders, entries[turn]? = some (source, holders) →
      (relocation.placeAll size (entries.take turn)).Ready size source holders.toList) :
    run size relocation entries = pure (relocation.placeAll size entries) := by
  induction entries generalizing relocation with
  | nil => rfl
  | cons entry rest ih =>
      obtain ⟨source, holders⟩ := entry
      have hhead : relocation.Ready size source holders.toList := hready 0 source holders rfl
      rw [run, place_eq hhead hword, pure_bind, Relocation.placeAll_cons]
      -- a turn of the rest is the next turn of the whole
      refine ih (by rwa [Relocation.size_buffer_place]) fun turn next nextHolders hentry => ?_
      exact hready (turn + 1) next nextHolders hentry

variable {memory : Memory}

theorem pack_eq (h : memory.Valid size) (hword : memory.buffer.size < UInt64.size) :
    pack size (.ofOffsets memory.offsets) memory =
      pure (memory.pack size (.ofOffsets memory.offsets)) := by
  have hpacks := Relocation.packs_run h
  have hlength := hpacks.size_buffer h.length_blocks h.length_live_mul_le
  have hroom := h.length_live_mul_le
  rw [← hpacks.packed, ← hlength] at hroom
  have hrun : run size { memory } (LiveIndex.ofOffsets memory.offsets).toList =
      pure (Relocation.run size (.ofOffsets memory.offsets) memory) :=
    run_eq hword fun turn source holders hentry => Relocation.ready_upTo h hentry
  rw [pack, hrun, pure_bind, clearFrom_eq hroom, pure_bind,
    sub_eq (by rwa [Buffer.size_clearFrom]), pure_bind, Memory.pack, Buffer.size_clearFrom, hlength]
  rfl

theorem compact_eq (hword : memory.buffer.size < UInt64.size) (size : BlockSize) :
    compact size memory = pure (memory.compact size) := by
  by_cases hempty : memory.buffer.size = 0
  · rw [Memory.compact_of_empty hempty]
    exact if_pos (by simpa using hempty)
  rw [Memory.compact_of_ne_empty hempty, compact, if_neg (by simpa using hempty), checkLength_eq,
    pure_bind]
  cases hlength : size.checkLength memory.buffer.size with
  | error fault => rfl
  | ok =>
      have hresolve : resolveFrom size memory.buffer 0 memory.slots.toList =
          pure (memory.resolveSlots size) := resolveFrom_eq 0 memory.slots.toList
      dsimp only
      rw [hresolve, pure_bind]
      cases hslots : memory.resolveSlots size with
      | error fault => rfl
      | ok offsets =>
          have hvalid := Memory.valid_of_checks hlength hslots
          rw [Memory.resolveSlots_of_valid hvalid, Except.ok.injEq] at hslots
          subst hslots
          exact pack_eq hvalid hword

theorem compactWidth_eq (hword : memory.buffer.size < UInt64.size) (width : Nat) :
    compactWidth width memory = pure (memory.compactWidth width) := by
  rw [compactWidth, Memory.compactWidth]
  by_cases hempty : memory.buffer.isEmpty = true
  · rw [if_pos hempty, if_pos hempty]
  rw [if_neg hempty, if_neg hempty]
  cases BlockSize.ofWidth width with
  | error fault => rfl
  | ok size => exact compact_eq hword size

theorem block_eq (hword : memory.buffer.size < UInt64.size) (size : BlockSize)
    (reference : Reference) :
    block size memory reference = pure (memory.block size reference) := by
  rw [block, checkLength_eq, pure_bind]
  cases hlength : size.checkLength memory.buffer.size with
  | error fault => rw [Memory.block_of_checkLength_error hlength]
  | ok =>
      dsimp only
      rw [Memory.block_of_checkLength_ok hlength, resolve_eq, pure_bind]
      cases hresolve : Buffer.resolve size memory.buffer 0 reference with
      | error fault => rfl
      | ok offset =>
          have hinside := (Buffer.resolve_eq_ok_iff_hasBlock.mp hresolve).2.inside
          -- the block ends in the buffer, and the length of that fits into a word
          dsimp only
          rw [add_eq (by omega), pure_bind, slice_eq hinside, pure_bind]
          rfl

end Guarded

/-! ## Blocks that have not been read -/

namespace Relocation

variable {size : BlockSize} {memory : Memory} {turn source unread : Nat} {holders : Array Nat}

/-- The blocks whose turn has not come start no earlier than the one whose turn it is. -/
theorem le_of_mem_drop_keys
    (hentry : (LiveIndex.ofOffsets memory.offsets).toList[turn]? = some (source, holders))
    (hunread : unread ∈ (LiveIndex.ofOffsets memory.offsets).keys.drop turn) :
    source ≤ unread := by
  have hturn := getElem?_live_of_entry hentry
  obtain ⟨hlt, hget⟩ := List.getElem?_eq_some_iff.mp hturn
  have hordered : (memory.slots.live.drop turn).Pairwise (· < ·) :=
    memory.slots.pairwise_live.sublist (List.drop_sublist _ _)
  rw [memory.keys_ofOffsets] at hunread
  -- the offsets that are left ascend, and the first of them is that of this turn
  rw [List.drop_eq_getElem_cons hlt, hget] at hordered hunread
  rcases List.mem_cons.mp hunread with rfl | hlater
  · exact Nat.le_refl _
  · exact Nat.le_of_lt ((List.pairwise_cons.mp hordered).1 unread hlater)

/-- **A block is read as it was before the pass.** -/
theorem slice_upTo (h : memory.Valid size)
    (hentry : (LiveIndex.ofOffsets memory.offsets).toList[turn]? = some (source, holders))
    (hle : source ≤ unread) :
    (upTo size (.ofOffsets memory.offsets) memory turn).memory.buffer.slice unread size.bytes =
      memory.buffer.slice unread size.bytes := by
  have hpacks := packs_upTo h turn
  have hbehind := (ready_upTo h hentry).behind
  have hblocks : (memory.buffer.blocks size (memory.slots.live.take turn)).length =
      (memory.slots.live.take turn).length * size.bytes :=
    Buffer.length_blocks fun o ho => (h.hasBlock_live (List.mem_of_mem_take ho)).inside
  -- behind the packed blocks the buffer is as it was
  rw [hpacks.packed] at hbehind
  rw [Buffer.slice_eq, Buffer.slice_eq, hpacks.drop_buffer hblocks (Nat.le_trans hbehind hle)]

theorem packed_upTo (h : memory.Valid size)
    (hentry : (LiveIndex.ofOffsets memory.offsets).toList[turn]? = some (source, holders)) :
    (upTo size (.ofOffsets memory.offsets) memory turn).packed = turn * size.bytes := by
  have hlt := (List.getElem?_eq_some_iff.mp (getElem?_live_of_entry hentry)).1
  rw [(packs_upTo h turn).packed, List.length_take, Nat.min_eq_left (Nat.le_of_lt hlt)]

end Relocation

/--
**No step leaves the memory, and no copy overlaps a block that is still to be read.**

Let the length of the buffer fit into a word of 64 bits; the slots may hold anything. Taken with
guards, a pass and the reading of a block return what they return without them.

Once the checks have passed, consider the turn of any live block. As many blocks as there have been
turns before are packed, and they end where this one starts, or before. If it has to be moved, its
new place ends before it starts. And of this block and every later one, no copy so far has reached
the bytes: they are those of the memory that the pass started with.
-/
theorem compact_in_range {memory : Memory} (hword : memory.buffer.size < UInt64.size) :
    (∀ size, Guarded.compact size memory = .ok (memory.compact size)) ∧
      (∀ width, Guarded.compactWidth width memory = .ok (memory.compactWidth width)) ∧
      (∀ size reference,
        Guarded.block size memory reference = .ok (memory.block size reference)) ∧
      ∀ size offsets, size.checkLength memory.buffer.size = .ok () →
        memory.resolveSlots size = .ok offsets →
        ∀ turn source holders,
          (LiveIndex.ofOffsets offsets).toList[turn]? = some (source, holders) →
          (Relocation.upTo size (.ofOffsets offsets) memory turn).packed = turn * size.bytes ∧
            turn * size.bytes ≤ source ∧
            (turn * size.bytes ≠ source → turn * size.bytes + size.bytes ≤ source) ∧
            ∀ unread ∈ (LiveIndex.ofOffsets offsets).keys.drop turn,
              (∀ move ∈ (Relocation.upTo size (.ofOffsets offsets) memory turn).moves,
                move.target + size.bytes ≤ unread) ∧
              (Relocation.upTo size (.ofOffsets offsets) memory turn).memory.buffer.slice
                unread size.bytes = memory.buffer.slice unread size.bytes := by
  refine ⟨Guarded.compact_eq hword, Guarded.compactWidth_eq hword, Guarded.block_eq hword, ?_⟩
  intro size offsets hlength hslots turn source holders hentry
  have hvalid := Memory.valid_of_checks hlength hslots
  rw [Memory.resolveSlots_of_valid hvalid, Except.ok.injEq] at hslots
  subst hslots
  have hready := Relocation.ready_upTo hvalid hentry
  have hpacked := Relocation.packed_upTo hvalid hentry
  refine ⟨hpacked, hpacked ▸ hready.behind, hpacked ▸ hready.apart, fun unread hunread => ?_⟩
  have hle : source ≤ unread := Relocation.le_of_mem_drop_keys hentry hunread
  refine ⟨fun move hmove => ?_, Relocation.slice_upTo hvalid hentry hle⟩
  calc move.target + size.bytes
    _ ≤ (Relocation.upTo size (.ofOffsets memory.offsets) memory turn).packed :=
        hready.written move hmove
    _ ≤ source := hready.behind
    _ ≤ unread := hle

theorem compact_in_range_chain :
    Guarded.compact .two Memory.chain = .ok (Memory.chain.compact .two) ∧
      Guarded.block .two Memory.chain (some (UInt64.size - 1)) =
        .ok (.error (.outOfBounds 0 (UInt64.size - 1) 10)) ∧
      (Relocation.upTo .two (.ofOffsets [8, 2, 4, 8]) Memory.chain 1).packed = 2 ∧
      (Relocation.upTo .two (.ofOffsets [8, 2, 4, 8]) Memory.chain 1).memory.buffer.slice 8 2 =
        [1, 2] := by
  obtain ⟨hpass, -, hread, hturn⟩ := @compact_in_range Memory.chain (by decide)
  have hentry : (LiveIndex.ofOffsets [8, 2, 4, 8]).toList[1]? = some (4, #[2]) := rfl
  obtain ⟨hpacked, -, -, hunread⟩ := hturn .two [8, 2, 4, 8] rfl rfl 1 4 #[2] hentry
  exact ⟨hpass .two, hread .two _, hpacked, (hunread 8 (by decide)).2⟩

end Compaction

import Compaction.Compact

/-!
# Which memories a pass goes through with

A memory is `Valid` for blocks of a size when its buffer splits into such blocks and every slot
designates a live one. A pass over a buffer that is not empty succeeds exactly then, and what it
does next depends on nothing but the offsets that the slots hold. A block is read through a
reference under the same conditions.

What is wrong with a memory that is not valid is the subject of `Proofs/Rejection.lean`.
-/

namespace Compaction

/-! ## Blocks that a reference may designate -/

/-- A live block of the given size lies at the offset. -/
structure Buffer.HasBlock (size : BlockSize) (buffer : Buffer) (offset : Nat) : Prop where
  /-- The block ends inside the buffer. -/
  inside : offset + size.bytes ≤ buffer.size
  /-- The block starts on a boundary. -/
  aligned : size.Aligned offset
  /-- Its first byte does not mark it as free. -/
  marked : buffer[offset]? ≠ some 0

theorem Buffer.resolve_eq_ok_iff_hasBlock {size : BlockSize} {buffer : Buffer} {slot offset : Nat}
    {reference : Reference} :
    Buffer.resolve size buffer slot reference = .ok offset ↔
      reference = some offset ∧ buffer.HasBlock size offset := by
  rw [Buffer.resolve_eq_ok_iff]
  refine ⟨fun h => ?_, fun h => ?_⟩
  · obtain ⟨heq, hinside, haligned, hmarked⟩ := h
    exact ⟨heq, hinside, haligned, hmarked⟩
  · obtain ⟨heq, hblock⟩ := h
    exact ⟨heq, hblock.inside, hblock.aligned, hblock.marked⟩

/-! ## Slot after slot -/

namespace Buffer

variable {size : BlockSize} {buffer : Buffer}

/-- The offsets that references designate, the first of them held in slot `start`. -/
def resolveFrom (size : BlockSize) (buffer : Buffer) (start : Nat) (references : List Reference) :
    Except Fault (List Nat) :=
  (references.zipIdx start).mapM fun (reference, slot) => resolve size buffer slot reference

theorem resolveFrom_cons_of_ok {start offset : Nat} {reference : Reference} {rest : List Reference}
    (h : resolve size buffer start reference = .ok offset) :
    resolveFrom size buffer start (reference :: rest) =
      (resolveFrom size buffer (start + 1) rest).map (offset :: ·) := by
  rw [resolveFrom, List.zipIdx_cons, List.mapM_cons]
  show (resolve size buffer start reference).bind _ = _
  rw [h]
  show (resolveFrom size buffer (start + 1) rest).bind _ = _
  cases resolveFrom size buffer (start + 1) rest <;> rfl

theorem resolveFrom_cons_of_error {start : Nat} {reference : Reference} {rest : List Reference}
    {fault : Fault} (h : resolve size buffer start reference = .error fault) :
    resolveFrom size buffer start (reference :: rest) = .error fault := by
  rw [resolveFrom, List.zipIdx_cons, List.mapM_cons]
  show (resolve size buffer start reference).bind _ = _
  rw [h]
  rfl

/-- All references are resolved when each of them designates a live block. -/
theorem resolveFrom_eq_ok_iff {start : Nat} {references : List Reference} {offsets : List Nat} :
    resolveFrom size buffer start references = .ok offsets ↔
      references = offsets.map some ∧ ∀ offset ∈ offsets, buffer.HasBlock size offset := by
  induction references generalizing start offsets with
  | nil =>
      rw [show resolveFrom size buffer start [] = .ok [] from rfl]
      cases offsets <;> simp
  | cons reference rest ih =>
      refine ⟨fun h => ?_, fun h => ?_⟩
      · cases hhead : resolve size buffer start reference with
        | error fault =>
            rw [resolveFrom_cons_of_error hhead] at h
            cases h
        | ok offset =>
            rw [resolveFrom_cons_of_ok hhead] at h
            cases htail : resolveFrom size buffer (start + 1) rest with
            | error fault =>
                rw [htail] at h
                cases h
            | ok found =>
                rw [htail] at h
                cases h
                obtain ⟨rfl, hblock⟩ := resolve_eq_ok_iff_hasBlock.mp hhead
                obtain ⟨rfl, hlive⟩ := ih.mp htail
                exact ⟨rfl, List.forall_mem_cons.mpr ⟨hblock, hlive⟩⟩
      · obtain ⟨hmap, hlive⟩ := h
        cases offsets with
        | nil => cases hmap
        | cons offset offsets =>
            obtain ⟨rfl, hrest⟩ := List.cons.inj hmap
            obtain ⟨hblock, hlive⟩ := List.forall_mem_cons.mp hlive
            rw [resolveFrom_cons_of_ok (resolve_eq_ok_iff_hasBlock.mpr ⟨rfl, hblock⟩),
              ih.mpr ⟨hrest, hlive⟩]
            rfl

end Buffer

/-! ## The whole request -/

namespace Memory

variable {size : BlockSize} {memory : Memory}

/-- A memory that a pass by blocks of the given size goes through with. -/
structure Valid (size : BlockSize) (memory : Memory) : Prop where
  /-- One block at least fits into the buffer. -/
  fits : size.bytes ≤ memory.buffer.size
  /-- The buffer ends with a block. -/
  even : size.Aligned memory.buffer.size
  /-- Every slot designates a live block. -/
  sound : ∀ reference ∈ memory.slots, ∃ offset, reference = some offset ∧
    memory.buffer.HasBlock size offset

/-- The offsets that slots hold, in slot order. -/
def offsets (memory : Memory) : List Nat := memory.slots.toList.filterMap id

theorem mem_offsets {offset : Nat} : offset ∈ memory.offsets ↔ some offset ∈ memory.slots := by
  simp [offsets]

theorem Valid.ne_empty (h : memory.Valid size) : memory.buffer.size ≠ 0 := by
  have hpos := size.bytes_pos
  have hfits := h.fits
  omega

theorem Valid.hasBlock (h : memory.Valid size) {offset : Nat} (ho : some offset ∈ memory.slots) :
    memory.buffer.HasBlock size offset := by
  obtain ⟨found, heq, hblock⟩ := h.sound _ ho
  exact Option.some.inj heq ▸ hblock

/-- Slots that hold nothing but references of a valid memory are as good as its own. -/
theorem Valid.of_subset {slots : Slots} (h : memory.Valid size)
    (hsub : ∀ reference ∈ slots, reference ∈ memory.slots) :
    Valid size { memory with slots } where
  fits := h.fits
  even := h.even
  sound := fun reference hr => h.sound reference (hsub reference hr)

theorem Valid.slots_eq (h : memory.Valid size) : memory.slots.toList = memory.offsets.map some := by
  have hall : ∀ reference ∈ memory.slots.toList, ∃ offset, reference = some offset := by
    intro reference hr
    obtain ⟨offset, heq, -⟩ := h.sound reference (Array.mem_toList_iff.mp hr)
    exact ⟨offset, heq⟩
  unfold offsets
  -- only that no slot is null matters from here on
  generalize memory.slots.toList = references at hall
  induction references with
  | nil => rfl
  | cons reference rest ih =>
      obtain ⟨⟨offset, rfl⟩, hrest⟩ := List.forall_mem_cons.mp hall
      rw [List.filterMap_cons_some (f := id) rfl, List.map_cons, ← ih hrest]

theorem resolveSlots_of_valid (h : memory.Valid size) :
    memory.resolveSlots size = .ok memory.offsets :=
  Buffer.resolveFrom_eq_ok_iff.mpr
    ⟨h.slots_eq, fun _ ho => h.hasBlock (mem_offsets.mp ho)⟩

theorem compact_of_empty (h : memory.buffer.size = 0) :
    memory.compact size = .untouched memory size :=
  if_pos (show memory.buffer.isEmpty = true by simpa using h)

theorem compact_of_ne_empty (h : memory.buffer.size ≠ 0) :
    memory.compact size =
      match size.checkLength memory.buffer.size with
      | .error fault => .rejected memory fault
      | .ok () =>
        match memory.resolveSlots size with
        | .error fault => .rejected memory fault
        | .ok offsets => memory.pack size (.ofOffsets offsets) :=
  if_neg (show ¬memory.buffer.isEmpty = true by simpa using h)

theorem compact_of_valid (h : memory.Valid size) :
    memory.compact size = memory.pack size (.ofOffsets memory.offsets) := by
  rw [compact_of_ne_empty h.ne_empty, BlockSize.checkLength_eq_ok_iff.mpr ⟨h.fits, h.even⟩]
  dsimp only
  rw [resolveSlots_of_valid h]

/-- A memory that passes the checks is valid. -/
theorem valid_of_checks {found : List Nat}
    (hlength : size.checkLength memory.buffer.size = .ok ())
    (hslots : memory.resolveSlots size = .ok found) : memory.Valid size := by
  obtain ⟨hfits, heven⟩ := BlockSize.checkLength_eq_ok_iff.mp hlength
  obtain ⟨hmap, hlive⟩ := Buffer.resolveFrom_eq_ok_iff.mp hslots
  refine ⟨hfits, heven, fun reference hr => ?_⟩
  rw [← Array.mem_toList_iff, hmap] at hr
  obtain ⟨offset, ho, rfl⟩ := List.mem_map.mp hr
  exact ⟨offset, rfl, hlive offset ho⟩

/-- A pass that succeeds has found a valid memory. -/
theorem valid_of_ok {report : Report} (hne : memory.buffer.size ≠ 0)
    (h : (memory.compact size).result = .ok report) : memory.Valid size := by
  rw [compact_of_ne_empty hne] at h
  cases hlength : size.checkLength memory.buffer.size with
  | error fault =>
      rw [hlength] at h
      cases h
  | ok =>
      rw [hlength] at h
      -- the length is right, so the slots must be too
      cases hslots : memory.resolveSlots size with
      | error fault =>
          rw [hslots] at h
          cases h
      | ok found => exact valid_of_checks hlength hslots

theorem exists_ok_iff_valid (hne : memory.buffer.size ≠ 0) :
    (∃ report, (memory.compact size).result = .ok report) ↔ memory.Valid size := by
  refine ⟨fun h => ?_, fun hvalid => ?_⟩
  · obtain ⟨report, hok⟩ := h
    exact valid_of_ok hne hok
  · exact ⟨_, congrArg Outcome.result (compact_of_valid hvalid)⟩

/-- A pass that is turned down leaves the memory as it was, and no entry in the journal. -/
theorem compact_of_error {fault : Fault} (h : (memory.compact size).result = .error fault) :
    memory.compact size = .rejected memory fault := by
  unfold compact at h ⊢
  split at h
  · cases h
  · rename_i hne
    rw [if_neg hne]
    split at h
    · cases h
      rfl
    · split at h
      · cases h
        rfl
      · cases h

theorem compactWidth_of_error {width : Nat} {fault : Fault}
    (h : (memory.compactWidth width).result = .error fault) :
    memory.compactWidth width = .rejected memory fault := by
  unfold compactWidth at h ⊢
  split at h
  · cases h
  · rename_i hne
    rw [if_neg hne]
    split at h
    · cases h
      rfl
    · exact compact_of_error h

theorem compactWidth_of_supported {width : Nat} (hne : memory.buffer.size ≠ 0)
    (h : size.bytes = width) : memory.compactWidth width = memory.compact size := by
  rw [compactWidth, if_neg (by simpa using hne), BlockSize.ofWidth_eq_ok_iff.mpr h]

theorem compactWidth_of_unsupported {width : Nat} (hne : memory.buffer.size ≠ 0)
    (h : BlockSize.ofBytes? width = none) :
    memory.compactWidth width = .rejected memory (.unsupportedWidth width) := by
  rw [compactWidth, if_neg (by simpa using hne), BlockSize.ofWidth, h]

theorem compactWidth_of_empty {width : Nat} (h : memory.buffer.size = 0) :
    memory.compactWidth width = .untouched memory default := by
  rw [compactWidth, if_pos (by simpa using h)]

/-! ## Reading one block -/

theorem block_of_checkLength_error {fault : Fault}
    (h : size.checkLength memory.buffer.size = .error fault) (reference : Reference) :
    memory.block size reference = .error fault := by
  rw [block, h]
  rfl

theorem block_of_checkLength_ok (h : size.checkLength memory.buffer.size = .ok ())
    (reference : Reference) :
    memory.block size reference =
      (Buffer.resolve size memory.buffer 0 reference).map (memory.buffer.slice · size.bytes) := by
  rw [block, h]
  show (Buffer.resolve size memory.buffer 0 reference).bind _ = _
  cases Buffer.resolve size memory.buffer 0 reference <;> rfl

/-- Reading returns the bytes of the live block that the reference designates. -/
theorem block_eq_ok_iff {bytes : List UInt8} :
    memory.block size reference = .ok bytes ↔
      size.checkLength memory.buffer.size = .ok () ∧
        ∃ offset, reference = some offset ∧ memory.buffer.HasBlock size offset ∧
          memory.buffer.slice offset size.bytes = bytes := by
  cases hlength : size.checkLength memory.buffer.size with
  | error fault => simp [block_of_checkLength_error hlength]
  | ok =>
      rw [block_of_checkLength_ok hlength]
      refine ⟨fun h => ⟨rfl, ?_⟩, fun h => ?_⟩
      · cases hresolve : Buffer.resolve size memory.buffer 0 reference with
        | error fault =>
            rw [hresolve] at h
            cases h
        | ok offset =>
            rw [hresolve] at h
            obtain ⟨heq, hblock⟩ := Buffer.resolve_eq_ok_iff_hasBlock.mp hresolve
            exact ⟨offset, heq, hblock, Except.ok.inj h⟩
      · obtain ⟨-, offset, heq, hblock, rfl⟩ := h
        rw [Buffer.resolve_eq_ok_iff_hasBlock.mpr ⟨heq, hblock⟩]
        rfl

end Memory

end Compaction

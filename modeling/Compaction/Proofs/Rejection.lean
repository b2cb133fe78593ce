import Compaction.Proofs.Acceptance

/-!
# What is wrong with a request that is turned down

The checks come in a fixed order: the width, the length of the buffer, then one slot after the
other. A request may fail several of them, and several slots may fail, so the order decides which
fault is reported. `Memory.RequestFault` says which one that is without going through the checks:
each of its constructors rules out the ones before it.

Nothing is written before the last check, so a fault is met by the memory as it was.
-/

namespace Compaction

/-! ## One reference -/

/--
What is wrong with the reference held in a slot. Bounds come before alignment and alignment before
the marker, so a reference that is wrong in several ways still has one fault.
-/
inductive Buffer.ReferenceFault (size : BlockSize) (buffer : Buffer) (slot : Nat) :
    Reference → Fault → Prop where
  | null : ReferenceFault size buffer slot none (.nullReference slot)
  | outside {offset : Nat} (beyond : buffer.size < offset + size.bytes) :
      ReferenceFault size buffer slot (some offset) (.outOfBounds slot offset buffer.size)
  | unaligned {offset : Nat} (inside : offset + size.bytes ≤ buffer.size)
      (between : ¬size.bytes ∣ offset) :
      ReferenceFault size buffer slot (some offset) (.unaligned slot offset size.bytes)
  | free {offset : Nat} (inside : offset + size.bytes ≤ buffer.size)
      (boundary : size.bytes ∣ offset) (marker : buffer[offset]? = some 0) :
      ReferenceFault size buffer slot (some offset) (.freeBlock slot offset)

theorem Buffer.resolve_eq_error_iff {size : BlockSize} {buffer : Buffer} {slot : Nat}
    {reference : Reference} {fault : Fault} :
    Buffer.resolve size buffer slot reference = .error fault ↔
      buffer.ReferenceFault size slot reference fault := by
  have hpos := size.bytes_pos
  refine ⟨fun h => ?_, fun h => ?_⟩
  · unfold Buffer.resolve at h
    split at h
    · cases h
      exact .null
    · rename_i offset
      split at h
      · cases h
        exact .outside (by omega)
      · have hinside : offset + size.bytes ≤ buffer.size := by omega
        split at h
        · rename_i hbetween
          cases h
          exact .unaligned hinside hbetween
        · rename_i hboundary
          split at h
          · rename_i hmarker
            cases h
            exact .free hinside (Decidable.not_not.mp hboundary) hmarker
          · cases h
  · -- each constructor names the first branch that is taken
    cases h with
    | null => rfl
    | outside hbeyond => rw [Buffer.resolve, if_pos (by omega)]
    | @unaligned offset hinside hbetween =>
        have hunaligned : ¬size.Aligned offset := hbetween
        rw [Buffer.resolve, if_neg (by omega), if_pos hunaligned]
    | @free offset hinside hboundary hmarker =>
        have haligned : size.Aligned offset := hboundary
        rw [Buffer.resolve, if_neg (by omega), if_neg (not_not_intro haligned), if_pos hmarker]

theorem Buffer.ReferenceFault.unique {size : BlockSize} {buffer : Buffer} {slot : Nat}
    {reference : Reference} {fault other : Fault}
    (h : buffer.ReferenceFault size slot reference fault)
    (hother : buffer.ReferenceFault size slot reference other) : fault = other :=
  Except.error.inj
    ((Buffer.resolve_eq_error_iff.mpr h).symm.trans (Buffer.resolve_eq_error_iff.mpr hother))

/-- There is nothing wrong with a reference to a live block. -/
theorem Buffer.ReferenceFault.not_hasBlock {size : BlockSize} {buffer : Buffer} {slot offset : Nat}
    {fault : Fault} (h : buffer.ReferenceFault size slot (some offset) fault) :
    ¬buffer.HasBlock size offset := by
  intro hblock
  cases h with
  | outside hbeyond => exact absurd hblock.inside (Nat.not_le_of_lt hbeyond)
  | unaligned hinside hbetween => exact hbetween hblock.aligned
  | free hinside hboundary hmarker => exact hblock.marked hmarker

/-! ## Slot after slot -/

namespace Buffer

variable {size : BlockSize} {buffer : Buffer}

/-- The fault of the first reference that has one, where reference 0 is held in slot `start`. -/
def FirstFault (size : BlockSize) (buffer : Buffer) (start : Nat) (references : List Reference)
    (fault : Fault) : Prop :=
  ∃ index reference, references[index]? = some reference ∧
    buffer.ReferenceFault size (start + index) reference fault ∧
    ∀ earlier < index, ∃ offset, references[earlier]? = some (some offset) ∧
      buffer.HasBlock size offset

/-- A reference at fault hides the faults behind it. -/
theorem firstFault_cons_of_fault {start : Nat} {reference : Reference} {rest : List Reference}
    {first fault : Fault} (h : buffer.ReferenceFault size start reference first) :
    buffer.FirstFault size start (reference :: rest) fault ↔ first = fault := by
  refine ⟨fun hfirst => ?_, fun heq => ?_⟩
  · obtain ⟨index, held, hget, hbad, hsound⟩ := hfirst
    cases index with
    | zero =>
        obtain rfl : reference = held := Option.some.inj hget
        exact h.unique hbad
    | succ index =>
        -- the first reference would have to designate a live block
        obtain ⟨offset, hoffset, hblock⟩ := hsound 0 (Nat.succ_pos _)
        obtain rfl : reference = some offset := Option.some.inj hoffset
        exact absurd hblock h.not_hasBlock
  · subst heq
    exact ⟨0, reference, rfl, h, fun _ hlt => absurd hlt (Nat.not_lt_zero _)⟩

/-- A reference to a live block leaves the fault to those behind it. -/
theorem firstFault_cons_of_hasBlock {start offset : Nat} {rest : List Reference} {fault : Fault}
    (h : buffer.HasBlock size offset) :
    buffer.FirstFault size start (some offset :: rest) fault ↔
      buffer.FirstFault size (start + 1) rest fault := by
  refine ⟨fun hfirst => ?_, fun hfirst => ?_⟩
  · obtain ⟨index, held, hget, hbad, hsound⟩ := hfirst
    cases index with
    | zero =>
        obtain rfl : some offset = held := Option.some.inj hget
        exact absurd h hbad.not_hasBlock
    | succ index =>
        refine ⟨index, held, hget, ?_, fun earlier hlt => hsound (earlier + 1) (by omega)⟩
        rwa [show start + 1 + index = start + (index + 1) by omega]
  · obtain ⟨index, held, hget, hbad, hsound⟩ := hfirst
    refine ⟨index + 1, held, hget, ?_, ?_⟩
    · rwa [show start + (index + 1) = start + 1 + index by omega]
    · intro earlier hlt
      cases earlier with
      | zero => exact ⟨offset, rfl, h⟩
      | succ earlier => exact hsound earlier (by omega)

/-- The fault that is found is that of the first reference that has one. -/
theorem resolveFrom_eq_error_iff {start : Nat} {references : List Reference} {fault : Fault} :
    resolveFrom size buffer start references = .error fault ↔
      buffer.FirstFault size start references fault := by
  induction references generalizing start with
  | nil =>
      rw [show resolveFrom size buffer start [] = .ok [] from rfl]
      simp [FirstFault]
  | cons reference rest ih =>
      cases hhead : resolve size buffer start reference with
      | error first =>
          rw [resolveFrom_cons_of_error hhead,
            firstFault_cons_of_fault (resolve_eq_error_iff.mp hhead), Except.error.injEq]
      | ok offset =>
          obtain ⟨rfl, hblock⟩ := resolve_eq_ok_iff_hasBlock.mp hhead
          rw [firstFault_cons_of_hasBlock hblock, ← ih, resolveFrom_cons_of_ok hhead]
          cases resolveFrom size buffer (start + 1) rest <;> simp [Except.map]

end Buffer

/-! ## The whole request -/

theorem BlockSize.checkLength_eq_error_iff {size : BlockSize} {length : Nat} {fault : Fault} :
    size.checkLength length = .error fault ↔
      (length < size.bytes ∧ .bufferTooShort size.bytes length = fault) ∨
        (size.bytes ≤ length ∧ ¬size.bytes ∣ length ∧ .unevenBuffer length size.bytes = fault) := by
  unfold checkLength
  by_cases hl : length < size.bytes
  · simp [hl, Nat.not_le_of_lt hl]
  · by_cases ha : size.Aligned length
    · simp [hl, ha, show size.bytes ∣ length from ha]
    · simp [hl, ha, Nat.le_of_not_lt hl, show ¬size.bytes ∣ length from ha]

namespace Memory

variable {size : BlockSize} {memory : Memory}

theorem resolveSlots_eq_error_iff {fault : Fault} :
    memory.resolveSlots size = .error fault ↔
      ∃ slot reference, memory.slots[slot]? = some reference ∧
        memory.buffer.ReferenceFault size slot reference fault ∧
        ∀ earlier < slot, ∃ offset, memory.slots[earlier]? = some (some offset) ∧
          memory.buffer.HasBlock size offset := by
  refine Iff.trans Buffer.resolveFrom_eq_error_iff ?_
  simp only [Buffer.FirstFault, Array.getElem?_toList, Nat.zero_add]

/-- A pass is turned down by the check of the length, or else by that of a slot. -/
theorem compact_eq_error_iff {fault : Fault} (hne : memory.buffer.size ≠ 0) :
    (memory.compact size).result = .error fault ↔
      size.checkLength memory.buffer.size = .error fault ∨
        size.bytes ≤ memory.buffer.size ∧ size.bytes ∣ memory.buffer.size ∧
          memory.resolveSlots size = .error fault := by
  rw [compact_of_ne_empty hne]
  cases hlength : size.checkLength memory.buffer.size with
  | error first =>
      have hno : ¬(size.bytes ≤ memory.buffer.size ∧ size.bytes ∣ memory.buffer.size) := by
        intro hok
        rw [BlockSize.checkLength_eq_ok_iff.mpr hok] at hlength
        cases hlength
      simp only [Outcome.rejected, Except.error.injEq]
      refine ⟨Or.inl, fun h => ?_⟩
      rcases h with h | ⟨hfits, heven, -⟩
      · exact h
      · exact absurd ⟨hfits, heven⟩ hno
  | ok =>
      obtain ⟨hfits, heven⟩ := BlockSize.checkLength_eq_ok_iff.mp hlength
      cases hslots : memory.resolveSlots size with
      | error first =>
          simp only [Outcome.rejected, reduceCtorEq, false_or, Except.error.injEq]
          exact ⟨fun h => ⟨hfits, heven, h⟩, fun h => h.2.2⟩
      | ok found => simp [pack]

/--
Why a request for blocks of `width` bytes is turned down. Each constructor states that the checks
before its own have passed.
-/
inductive RequestFault (width : Nat) (memory : Memory) : Fault → Prop where
  | unsupportedWidth (nonempty : memory.buffer.size ≠ 0) (unsupported : width ∉ [1, 2, 4, 8]) :
      RequestFault width memory (.unsupportedWidth width)
  | bufferTooShort (nonempty : memory.buffer.size ≠ 0) (supported : width ∈ [1, 2, 4, 8])
      (short : memory.buffer.size < width) :
      RequestFault width memory (.bufferTooShort width memory.buffer.size)
  | unevenBuffer (nonempty : memory.buffer.size ≠ 0) (supported : width ∈ [1, 2, 4, 8])
      (fits : width ≤ memory.buffer.size) (uneven : ¬width ∣ memory.buffer.size) :
      RequestFault width memory (.unevenBuffer memory.buffer.size width)
  | slot {size : BlockSize} {slot : Nat} {reference : Reference} {fault : Fault}
      (nonempty : memory.buffer.size ≠ 0) (supported : size.bytes = width)
      (fits : width ≤ memory.buffer.size) (even : width ∣ memory.buffer.size)
      (held : memory.slots[slot]? = some reference)
      (bad : memory.buffer.ReferenceFault size slot reference fault)
      (first : ∀ earlier < slot, ∃ offset, memory.slots[earlier]? = some (some offset) ∧
        memory.buffer.HasBlock size offset) :
      RequestFault width memory fault

end Memory

theorem BlockSize.ofBytes?_eq_none_iff {width : Nat} :
    ofBytes? width = none ↔ width ∉ [1, 2, 4, 8] := by
  refine ⟨fun h hmem => ?_, fun h => ?_⟩
  · simp only [List.mem_cons, List.not_mem_nil, or_false] at hmem
    rcases hmem with rfl | rfl | rfl | rfl <;> cases h
  · cases hsize : ofBytes? width with
    | none => rfl
    | some size =>
        obtain rfl := ofBytes?_eq_some_iff.mp hsize
        exact absurd (by cases size <;> decide) h

theorem Memory.compactWidth_eq_error_iff {width : Nat} {memory : Memory} {fault : Fault} :
    (memory.compactWidth width).result = .error fault ↔ memory.RequestFault width fault := by
  by_cases hempty : memory.buffer.size = 0
  · rw [compactWidth_of_empty hempty]
    refine ⟨fun h => ?_, fun h => ?_⟩
    · cases h
    · cases h <;> contradiction
  cases hsize : BlockSize.ofBytes? width with
  | none =>
      have hno := BlockSize.ofBytes?_eq_none_iff.mp hsize
      rw [compactWidth_of_unsupported hempty hsize]
      refine ⟨fun h => ?_, fun h => ?_⟩
      · cases h
        exact .unsupportedWidth hempty hno
      · cases h with
        | unsupportedWidth => rfl
        | bufferTooShort _ hs => exact absurd hs hno
        | unevenBuffer _ hs => exact absurd hs hno
        | slot _ hs =>
            rw [BlockSize.ofBytes?_eq_some_iff.mpr hs] at hsize
            cases hsize
  | some size =>
      obtain rfl := BlockSize.ofBytes?_eq_some_iff.mp hsize
      have hyes : size.bytes ∈ [1, 2, 4, 8] := by cases size <;> decide
      rw [compactWidth_of_supported hempty rfl, compact_eq_error_iff hempty,
        BlockSize.checkLength_eq_error_iff, resolveSlots_eq_error_iff]
      refine ⟨fun h => ?_, fun h => ?_⟩
      · rcases h with (⟨hs, rfl⟩ | ⟨hf, hu, rfl⟩) | ⟨hf, he, slot, reference, hheld, hbad, hfirst⟩
        · exact .bufferTooShort hempty hyes hs
        · exact .unevenBuffer hempty hyes hf hu
        · exact .slot hempty rfl hf he hheld hbad hfirst
      · cases h with
        | unsupportedWidth _ hno => exact absurd hyes hno
        | bufferTooShort _ _ hs => exact .inl (.inl ⟨hs, rfl⟩)
        | unevenBuffer _ _ hf hu => exact .inl (.inr ⟨hf, hu, rfl⟩)
        | slot _ hs hf he hheld hbad hfirst =>
            -- the width names one size only
            rw [BlockSize.ofBytes?_eq_some_iff.mpr hs] at hsize
            obtain rfl := Option.some.inj hsize
            exact .inr ⟨hf, he, _, _, hheld, hbad, hfirst⟩

/--
**Validation is exact and a fault changes nothing.**

A request over an empty buffer succeeds with the report of nothing, whatever the width and the
slots. Any other request meets precisely its `RequestFault`, and succeeds when it has none. With a
fault the memory is the one that was passed in. Where the width is supported, the request is the
pass by blocks of that width.
-/
theorem compactWidth_exact (width : Nat) (memory : Memory) :
    (memory.buffer.size = 0 → memory.compactWidth width = { result := .ok {}, memory }) ∧
      (∀ fault, (memory.compactWidth width).result = .error fault ↔
        memory.RequestFault width fault) ∧
      ((∀ fault, ¬memory.RequestFault width fault) →
        ∃ report, (memory.compactWidth width).result = .ok report) ∧
      (∀ fault, (memory.compactWidth width).result = .error fault →
        (memory.compactWidth width).memory = memory) ∧
      ∀ size : BlockSize, memory.buffer.size ≠ 0 → size.bytes = width →
        memory.compact size = memory.compactWidth width := by
  refine ⟨?_, fun _ => Memory.compactWidth_eq_error_iff, ?_, ?_, ?_⟩
  · exact fun hempty => Memory.compactWidth_of_empty hempty
  · intro hnone
    cases hresult : (memory.compactWidth width).result with
    | error fault => exact absurd (Memory.compactWidth_eq_error_iff.mp hresult) (hnone fault)
    | ok report => exact ⟨report, rfl⟩
  · exact fun fault h => by rw [Memory.compactWidth_of_error h]; rfl
  · exact fun size hne hwidth => (Memory.compactWidth_of_supported hne hwidth).symm

-- Slot 1 is out of bounds, unaligned and on a free byte, and slot 2 is null.
example :
    (Memory.compactWidth 2 { buffer := #[5, 0, 0, 0], slots := #[some 0, some 3, none] }).result =
      .error (.outOfBounds 1 3 4) := rfl

end Compaction

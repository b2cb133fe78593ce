import Compaction.Proofs.InPlace

/-!
# References keep designating their values

A pass moves blocks and makes the slots follow. `Memory.Relocates` says what must not be lost on the
way: every slot designates a block with the bytes it designated before, no block lies further back
than it did, and no two references have changed places or fallen together.

The relation composes, and it can be narrowed: what holds of blocks of one size holds of blocks of
any smaller size, because each boundary of the wider grid is one of the narrower. That is all a run
of passes needs, whatever sizes it mixes. Seen in blocks of the smallest size that was used, every
pass of the run has kept what the slots designate.
-/

namespace Compaction

/-! ## Narrower blocks -/

theorem BlockSize.bytes_dvd_of_le {size finer : BlockSize} (h : finer.bytes ≤ size.bytes) :
    finer.bytes ∣ size.bytes := by
  revert h
  cases finer <;> cases size <;> decide

namespace Buffer

variable {size finer : BlockSize} {buffer : Buffer}

/-- A block is live in narrower blocks too: its first byte is the first of theirs. -/
theorem HasBlock.narrow {offset : Nat} (h : buffer.HasBlock size offset)
    (hle : finer.bytes ≤ size.bytes) : buffer.HasBlock finer offset where
  inside := by
    have hinside := h.inside
    omega
  aligned := Nat.dvd_trans (BlockSize.bytes_dvd_of_le hle) h.aligned
  marked := h.marked

theorem take_slice {offset width less : Nat} (h : less ≤ width) :
    (buffer.slice offset width).take less = buffer.slice offset less := by
  rw [slice_eq, slice_eq, List.take_take, Nat.min_eq_left h]

theorem getElem?_eq_of_slice_eq {after before : Buffer} {target source width : Nat}
    (h : after.slice target width = before.slice source width) (hpos : 0 < width) :
    after[target]? = before[source]? := by
  have hbyte : (after.slice target width)[0]? = (before.slice source width)[0]? := by rw [h]
  rwa [getElem?_slice, getElem?_slice, if_pos hpos, if_pos hpos] at hbyte

end Buffer

namespace Memory

variable {size finer : BlockSize} {before middle after memory : Memory}
  {move next : Nat → Nat}

theorem Valid.narrow (h : memory.Valid size) (hle : finer.bytes ≤ size.bytes) :
    memory.Valid finer where
  fits := Nat.le_trans hle h.fits
  even := Nat.dvd_trans (BlockSize.bytes_dvd_of_le hle) h.even
  sound := by
    intro reference hr
    obtain ⟨offset, heq, hblock⟩ := h.sound reference hr
    exact ⟨offset, heq, hblock.narrow hle⟩

theorem Valid.block_eq (h : memory.Valid size) {offset : Nat} (ho : some offset ∈ memory.slots) :
    memory.block size (some offset) = .ok (memory.buffer.slice offset size.bytes) := by
  have hlength := BlockSize.checkLength_eq_ok_iff.mpr ⟨h.fits, h.even⟩
  exact block_eq_ok_iff.mpr ⟨hlength, offset, rfl, h.hasBlock ho, rfl⟩

/-! ## What a pass keeps -/

/-- Slots that held an offset hold where `move` takes it, and designate what they did. -/
structure Relocates (size : BlockSize) (move : Nat → Nat) (before after : Memory) : Prop where
  /-- Every slot designated a live block. -/
  source : before.Valid size
  /-- Every slot designates a live block. -/
  target : after.Valid size
  /-- The buffer is as long as it was. -/
  length : after.buffer.size = before.buffer.size
  /-- Slots keep their places. -/
  slots : after.slots = before.slots.map (Option.map move)
  /-- The block holds the bytes it held. -/
  slice : ∀ offset, some offset ∈ before.slots →
    after.buffer.slice (move offset) size.bytes = before.buffer.slice offset size.bytes
  /-- No block has moved back. -/
  le : ∀ offset, some offset ∈ before.slots → move offset ≤ offset
  /-- Blocks are in the order they were in, and different where they were. -/
  order : ∀ first second, some first ∈ before.slots → some second ∈ before.slots →
    compare (move first) (move second) = compare first second

theorem Relocates.mem_slots (h : Relocates size move before after) {offset : Nat}
    (ho : some offset ∈ before.slots) : some (move offset) ∈ after.slots := by
  rw [h.slots, Array.mem_map]
  exact ⟨some offset, ho, rfl⟩

/-- **Relocations compose.** -/
theorem Relocates.trans (h : Relocates size move before middle)
    (hnext : Relocates size next middle after) :
    Relocates size (fun offset => next (move offset)) before after where
  source := h.source
  target := hnext.target
  length := hnext.length.trans h.length
  slots := by
    rw [hnext.slots, h.slots, Array.map_map]
    congr 1
    funext reference
    exact Option.map_map next move reference
  slice := fun offset ho => (hnext.slice _ (h.mem_slots ho)).trans (h.slice _ ho)
  le := fun offset ho => Nat.le_trans (hnext.le _ (h.mem_slots ho)) (h.le _ ho)
  order := fun first second hf hs =>
    (hnext.order _ _ (h.mem_slots hf) (h.mem_slots hs)).trans (h.order _ _ hf hs)

/-- **A relocation of wide blocks is one of the narrower blocks they are made of.** -/
theorem Relocates.narrow (h : Relocates size move before after)
    (hle : finer.bytes ≤ size.bytes) : Relocates finer move before after where
  source := h.source.narrow hle
  target := h.target.narrow hle
  length := h.length
  slots := h.slots
  slice := fun offset ho => by
    rw [← Buffer.take_slice hle, h.slice offset ho, Buffer.take_slice hle]
  le := h.le
  order := h.order

theorem Valid.gathered (h : memory.Valid size) : (memory.gathered size).Valid size where
  fits := h.size_gathered.symm ▸ h.fits
  even := h.size_gathered.symm ▸ h.even
  sound := by
    intro reference hr
    rw [Memory.gathered, Array.mem_map] at hr
    obtain ⟨held, hheld, rfl⟩ := hr
    obtain ⟨offset, rfl, hblock⟩ := h.sound held hheld
    have ho : offset ∈ memory.slots.live := Slots.mem_live.mpr hheld
    refine ⟨packedOffset size memory.slots.live offset, rfl, ?_, aligned_packedOffset ho, ?_⟩
    · rw [h.size_gathered]
      exact Nat.le_trans (packedOffset_add_le ho) h.length_live_mul_le
    · rw [Buffer.getElem?_eq_of_slice_eq (h.slice_gathered ho) size.bytes_pos]
      exact hblock.marked

/-- **A pass relocates.** -/
theorem Valid.relocates (h : memory.Valid size) :
    Relocates size (packedOffset size memory.slots.live) memory (memory.gathered size) where
  source := h
  target := h.gathered
  length := h.size_gathered
  slots := rfl
  slice := fun _ ho => h.slice_gathered (Slots.mem_live.mpr ho)
  le := fun offset _ => h.ascending.packedOffset_le offset
  order := fun _ _ hf hs =>
    h.ascending.compare_packedOffset (Slots.mem_live.mpr hf) (Slots.mem_live.mpr hs)

/-! ## Runs -/

/-- The memory after requests to compact it by blocks of the given widths, one after the other. -/
def compactAll (memory : Memory) : List Nat → Memory
  | [] => memory
  | width :: rest => (memory.compactWidth width).memory.compactAll rest

theorem compactAll_append (memory : Memory) (first second : List Nat) :
    memory.compactAll (first ++ second) = (memory.compactAll first).compactAll second := by
  induction first generalizing memory with
  | nil => rfl
  | cons width rest ih => exact ih _

/-- The widths of those requests of a run that succeed. -/
def accepted (memory : Memory) : List Nat → List Nat
  | [] => []
  | width :: rest =>
    match (memory.compactWidth width).result with
    | .ok _ => width :: (memory.compactWidth width).memory.accepted rest
    | .error _ => (memory.compactWidth width).memory.accepted rest

/-- What one request does to a buffer that is not empty. -/
theorem compactWidth_cases (hne : memory.buffer.size ≠ 0) (width : Nat) :
    (∃ fault, memory.compactWidth width = .rejected memory fault) ∨
      ∃ size : BlockSize, size.bytes = width ∧ memory.Valid size ∧
        (memory.compactWidth width).result = .ok (memory.account size) ∧
        (memory.compactWidth width).memory = memory.gathered size := by
  cases hresult : (memory.compactWidth width).result with
  | error fault => exact .inl ⟨fault, compactWidth_of_error hresult⟩
  | ok report =>
      cases hsize : BlockSize.ofBytes? width with
      | none =>
          rw [compactWidth_of_unsupported hne hsize] at hresult
          cases hresult
      | some size =>
          have hwidth := BlockSize.ofBytes?_eq_some_iff.mp hsize
          rw [compactWidth_of_supported hne hwidth] at hresult ⊢
          obtain ⟨hvalid, rfl, hmemory⟩ := compact_of_ok hne hresult
          exact .inr ⟨size, hwidth, hvalid, rfl, hmemory⟩

theorem accepted_cons_of_rejected {width : Nat} {rest : List Nat} {fault : Fault}
    (h : memory.compactWidth width = .rejected memory fault) :
    memory.accepted (width :: rest) = memory.accepted rest := by
  rw [accepted, h]
  rfl

theorem accepted_cons_of_ok {width : Nat} {rest : List Nat} {report : Report}
    (h : (memory.compactWidth width).result = .ok report) :
    memory.accepted (width :: rest) =
      width :: (memory.compactWidth width).memory.accepted rest := by
  rw [accepted, h]

theorem exists_size_of_mem_accepted {widths : List Nat} (hne : memory.buffer.size ≠ 0) {width : Nat}
    (h : width ∈ memory.accepted widths) : ∃ size : BlockSize, size.bytes = width := by
  induction widths generalizing memory with
  | nil => cases h
  | cons first rest ih =>
      rcases compactWidth_cases hne first with
        ⟨fault, hrejected⟩ | ⟨size, hfirst, hvalid, hok, hmemory⟩
      · rw [accepted_cons_of_rejected hrejected] at h
        exact ih hne h
      · rw [accepted_cons_of_ok hok, hmemory] at h
        rcases List.mem_cons.mp h with rfl | h
        · exact ⟨size, hfirst⟩
        · exact ih (hvalid.size_gathered.symm ▸ hne) h

theorem compactAll_of_accepted_nil {widths : List Nat} (hne : memory.buffer.size ≠ 0)
    (h : memory.accepted widths = []) : memory.compactAll widths = memory := by
  induction widths with
  | nil => rfl
  | cons first rest ih =>
      rcases compactWidth_cases hne first with ⟨fault, hrejected⟩ | ⟨size, -, -, hok, -⟩
      · rw [accepted_cons_of_rejected hrejected] at h
        rw [compactAll, hrejected]
        exact ih h
      · rw [accepted_cons_of_ok hok] at h
        cases h

/--
**A run relocates**, in blocks no wider than those of any of its passes. A pass by wider blocks is
narrowed to them; it does not matter in which order wide and narrow passes come.
-/
theorem exists_relocates_compactAll {widths : List Nat} (hne : memory.buffer.size ≠ 0)
    (hsome : memory.accepted widths ≠ [])
    (hle : ∀ width ∈ memory.accepted widths, size.bytes ≤ width) :
    ∃ move, Relocates size move memory (memory.compactAll widths) := by
  induction widths generalizing memory with
  | nil => exact absurd rfl hsome
  | cons first rest ih =>
      rcases compactWidth_cases hne first with
        ⟨fault, hrejected⟩ | ⟨wide, hwide, hvalid, hok, hmemory⟩
      · -- the request changed nothing and does not count
        rw [accepted_cons_of_rejected hrejected] at hsome hle
        rw [compactAll, hrejected]
        exact ih hne hsome hle
      · rw [accepted_cons_of_ok hok, hmemory] at hle
        obtain ⟨hfirst, hrest⟩ := List.forall_mem_cons.mp hle
        have hpass := hvalid.relocates.narrow (hwide ▸ hfirst)
        have hne' : (memory.gathered wide).buffer.size ≠ 0 := hvalid.size_gathered.symm ▸ hne
        rw [compactAll, hmemory]
        by_cases hlast : (memory.gathered wide).accepted rest = []
        · -- this pass is the last that succeeds
          rw [compactAll_of_accepted_nil hne' hlast]
          exact ⟨_, hpass⟩
        · obtain ⟨move, hmove⟩ := ih hne' hlast hrest
          exact ⟨_, hpass.trans hmove⟩

end Memory

/--
**References keep designating the same values over whole runs.**

Take any run of requests over a buffer that is not empty. If none of them succeeds, the memory is as
it was. Otherwise let `width` be the smallest width of those that succeed. Every slot held an offset
and still holds one, which is no greater; the block of `width` bytes read through the slot is the
same before and after; and the offsets of any two slots compare as they did.
-/
theorem compactAll_keeps_values {memory : Memory} (hne : memory.buffer.size ≠ 0)
    (widths : List Nat) :
    (memory.accepted widths = [] → memory.compactAll widths = memory) ∧
      ∀ width, (memory.accepted widths).min? = some width →
        ∃ size : BlockSize, size.bytes = width ∧
          (memory.compactAll widths).slots.size = memory.slots.size ∧
          (∀ slot < memory.slots.size, ∃ old new bytes,
            memory.slots[slot]? = some (some old) ∧
            (memory.compactAll widths).slots[slot]? = some (some new) ∧
            new ≤ old ∧
            memory.block size (some old) = .ok bytes ∧
            (memory.compactAll widths).block size (some new) = .ok bytes) ∧
          ∀ slot other old old' new new' : Nat,
            memory.slots[slot]? = some (some old) → memory.slots[other]? = some (some old') →
            (memory.compactAll widths).slots[slot]? = some (some new) →
            (memory.compactAll widths).slots[other]? = some (some new') →
            compare new new' = compare old old' := by
  refine ⟨Memory.compactAll_of_accepted_nil hne, fun width hmin => ?_⟩
  obtain ⟨hmem, hle⟩ := List.min?_eq_some_iff.mp hmin
  obtain ⟨size, rfl⟩ := Memory.exists_size_of_mem_accepted hne hmem
  obtain ⟨move, hrun⟩ :=
    Memory.exists_relocates_compactAll hne (List.ne_nil_of_mem hmem) hle
  have hslot : ∀ slot old : Nat, memory.slots[slot]? = some (some old) →
      (memory.compactAll widths).slots[slot]? = some (some (move old)) := by
    intro slot old hold
    rw [hrun.slots, Array.getElem?_map, hold]
    rfl
  -- no slot is null, since some request succeeded
  refine ⟨size, rfl, ?_, ?_, ?_⟩
  · rw [hrun.slots, Array.size_map]
  · intro slot hlt
    obtain ⟨old, hold, -⟩ := hrun.source.sound _ (Array.getElem_mem hlt)
    have hget : memory.slots[slot]? = some (some old) := by rw [Array.getElem?_eq_getElem hlt, hold]
    have hmem : some old ∈ memory.slots := Array.mem_of_getElem? hget
    refine ⟨old, move old, _, hget, hslot slot old hget, hrun.le old hmem,
      hrun.source.block_eq hmem, ?_⟩
    rw [hrun.target.block_eq (hrun.mem_slots hmem), hrun.slice old hmem]
  · intro slot other old old' new new' hold hold' hnew hnew'
    obtain rfl : move old = new := by simpa [hslot slot old hold] using hnew
    obtain rfl : move old' = new' := by simpa [hslot other old' hold'] using hnew'
    exact hrun.order old old' (Array.mem_of_getElem? hold) (Array.mem_of_getElem? hold')

/-- One block of which a wide pass keeps more than the narrow passes around it look at. -/
def Memory.lone : Memory where
  buffer := #[0, 0, 0, 0, 3, 3, 7, 5, 9, 0, 0, 1, 0, 0, 0, 2]
  slots := #[some 6, some 6]

theorem compactAll_keeps_values_lone :
    Memory.lone.accepted [3, 2, 8, 1] = [2, 8, 1] ∧
      ∃ bytes, Memory.lone.block .one (some 6) = .ok bytes ∧
        (Memory.lone.compactAll [3, 2, 8, 1]).block .one (some 0) = .ok bytes := by
  have haccepted : Memory.lone.accepted [3, 2, 8, 1] = [2, 8, 1] := by decide +kernel
  have hafter : (Memory.lone.compactAll [3, 2, 8, 1]).slots[0]? = some (some 0) := by
    decide +kernel
  have hmin : (Memory.lone.accepted [3, 2, 8, 1]).min? = some 1 := by rw [haccepted]; rfl
  obtain ⟨size, hsize, -, hslots, -⟩ :=
    (compactAll_keeps_values (by decide) [3, 2, 8, 1]).2 1 hmin
  obtain ⟨old, new, bytes, hold, hnew, -, hbefore, hread⟩ := hslots 0 (by decide)
  obtain rfl : (6 : Nat) = old := Option.some.inj (Option.some.inj hold)
  obtain rfl : (0 : Nat) = new := Option.some.inj (Option.some.inj (hafter.symm.trans hnew))
  obtain rfl : BlockSize.one = size :=
    Option.some.inj (BlockSize.ofBytes?_eq_some_iff.mpr hsize)
  exact ⟨haccepted, bytes, hbefore, hread⟩

end Compaction

import Compaction.Proofs.Absorption
import Compaction.Proofs.Rejection

/-!
# Bytes that no slot designates have no influence

A free block may hold anything, and so may a marked block to which no slot refers. Nothing of it
shows in the outcome of a pass, be it the report, a fault, the slots or the buffer, where leftovers
would be bytes in a hole that was not closed or in a tail that was not zeroed.

The checks need care, for they come before it is known that the slots are sound: the marker byte
must not be read at an offset that is no block at all. It is read last, after the bounds and the
alignment, so what is read is the first byte of a block that some slot designates. From there on the
two runs are related as runs before and after a relocation that moves no block.
-/

namespace Compaction

/--
Two buffers of one length that hold the same bytes in every block which some slot designates. An
offset that lies between boundaries, or too far back for a block, designates none.
-/
structure Buffer.AgreesOn (size : BlockSize) (slots : Slots) (first second : Buffer) : Prop where
  length : second.size = first.size
  bytes : ∀ offset, some offset ∈ slots → size.Aligned offset →
    offset + size.bytes ≤ first.size →
    ∀ place, offset ≤ place → place < offset + size.bytes → second[place]? = first[place]?

namespace Buffer.AgreesOn

variable {size : BlockSize} {slots : Slots} {first second : Buffer}

/-! ## The checks -/

theorem resolve_eq (h : AgreesOn size slots first second) {reference : Reference}
    (hr : reference ∈ slots) (slot : Nat) :
    resolve size second slot reference = resolve size first slot reference := by
  have hpos := size.bytes_pos
  cases reference with
  | none => rfl
  | some offset =>
      unfold resolve
      rw [h.length]
      by_cases hbeyond : first.size < size.bytes ∨ first.size - size.bytes < offset
      · dsimp only
        rw [if_pos hbeyond, if_pos hbeyond]
      · by_cases haligned : size.Aligned offset
        · -- the one case in which a byte is looked at
          have hmarker : second[offset]? = first[offset]? :=
            h.bytes offset hr haligned (by omega) offset (Nat.le_refl _) (by omega)
          dsimp only
          rw [hmarker]
        · dsimp only
          rw [if_neg hbeyond, if_neg hbeyond, if_pos haligned, if_pos haligned]

theorem resolveFrom_eq (h : AgreesOn size slots first second) {references : List Reference}
    (hsub : ∀ reference ∈ references, reference ∈ slots) (start : Nat) :
    resolveFrom size second start references = resolveFrom size first start references := by
  induction references generalizing start with
  | nil => rfl
  | cons reference rest ih =>
      obtain ⟨hr, hrest⟩ := List.forall_mem_cons.mp hsub
      have hhead := h.resolve_eq hr start
      cases hfirst : resolve size first start reference with
      | error fault =>
          rw [resolveFrom_cons_of_error hfirst, resolveFrom_cons_of_error (hhead.trans hfirst)]
      | ok offset =>
          rw [resolveFrom_cons_of_ok hfirst, resolveFrom_cons_of_ok (hhead.trans hfirst),
            ih hrest]

theorem resolveSlots_eq (h : AgreesOn size slots first second) :
    Memory.resolveSlots size { buffer := second, slots } =
      Memory.resolveSlots size { buffer := first, slots } :=
  h.resolveFrom_eq (fun _ hr => Array.mem_toList_iff.mp hr) 0

/-- A request is turned down in the one buffer as it is in the other. -/
theorem result_eq_error (h : AgreesOn size slots first second) (hne : first.size ≠ 0)
    {fault : Fault}
    (herror : (Memory.compact size { buffer := first, slots }).result = .error fault) :
    (Memory.compact size { buffer := second, slots }).result = .error fault := by
  have hne' : second.size ≠ 0 := h.length ▸ hne
  rw [Memory.compact_eq_error_iff hne] at herror
  rw [Memory.compact_eq_error_iff hne', h.resolveSlots_eq]
  dsimp only
  rw [h.length]
  exact herror

theorem hasBlock (h : AgreesOn size slots first second) {offset : Nat}
    (ho : some offset ∈ slots) (hblock : first.HasBlock size offset) :
    second.HasBlock size offset := by
  have hresolve : resolve size second 0 (some offset) = .ok offset := by
    rw [h.resolve_eq ho]
    exact resolve_eq_ok_iff_hasBlock.mpr ⟨rfl, hblock⟩
  exact (resolve_eq_ok_iff_hasBlock.mp hresolve).2

theorem valid (h : AgreesOn size slots first second)
    (hvalid : Memory.Valid size { buffer := first, slots }) :
    Memory.Valid size { buffer := second, slots } where
  fits := h.length.symm ▸ hvalid.fits
  even := h.length.symm ▸ hvalid.even
  sound := by
    intro reference hr
    obtain ⟨offset, rfl, hblock⟩ := hvalid.sound reference hr
    exact ⟨offset, rfl, h.hasBlock hr hblock⟩

/-! ## The packed memory -/

/-- Going over to the other buffer is a relocation that leaves every block where it is. -/
theorem relocates (h : AgreesOn size slots first second)
    (hvalid : Memory.Valid size { buffer := first, slots }) :
    Memory.Relocates size id { buffer := first, slots } { buffer := second, slots } where
  source := hvalid
  target := h.valid hvalid
  length := h.length
  slots := by rw [Option.map_id, Array.map_id]
  slice := by
    intro offset ho
    have hblock := hvalid.hasBlock ho
    refine List.ext_getElem? fun i => ?_
    rw [getElem?_slice, getElem?_slice]
    by_cases hi : i < size.bytes
    · rw [if_pos hi, if_pos hi]
      exact h.bytes offset ho hblock.aligned hblock.inside (offset + i) (by omega)
        (Nat.add_lt_add_left hi offset)
    · rw [if_neg hi, if_neg hi]
  le := fun _ _ => Nat.le_refl _
  order := fun _ _ _ _ => rfl

end Buffer.AgreesOn

/--
**Bytes outside the designated blocks have no influence on a pass.**

Let two buffers be of one length and agree on every block that some slot designates. A pass over the
one has the same result as a pass over the other, report or fault, notes down the same, and leaves
the same slots. When it succeeds it leaves the same buffer, byte for byte.
-/
theorem compact_of_agreesOn {size : BlockSize} {slots : Slots} {first second : Buffer}
    (h : Buffer.AgreesOn size slots first second) :
    (Memory.compact size { buffer := second, slots }).result =
        (Memory.compact size { buffer := first, slots }).result ∧
      (Memory.compact size { buffer := second, slots }).journal =
        (Memory.compact size { buffer := first, slots }).journal ∧
      (Memory.compact size { buffer := second, slots }).memory.slots =
        (Memory.compact size { buffer := first, slots }).memory.slots ∧
      ∀ report, (Memory.compact size { buffer := first, slots }).result = .ok report →
        (Memory.compact size { buffer := second, slots }).memory.buffer =
          (Memory.compact size { buffer := first, slots }).memory.buffer := by
  by_cases hempty : first.size = 0
  · -- there is one empty buffer only
    have heq : second = first := by
      rw [Array.eq_empty_of_size_eq_zero hempty,
        Array.eq_empty_of_size_eq_zero (h.length.trans hempty)]
    rw [heq]
    exact ⟨rfl, rfl, rfl, fun _ _ => rfl⟩
  cases hresult : (Memory.compact size { buffer := first, slots }).result with
  | error fault =>
      rw [Memory.compact_of_error hresult,
        Memory.compact_of_error (h.result_eq_error hempty hresult)]
      exact ⟨rfl, rfl, rfl, fun _ hok => by cases hok⟩
  | ok report =>
      have hvalid := Memory.valid_of_ok hempty hresult
      -- of the buffer the account has the length alone
      have haccount : Memory.account size { buffer := second, slots } =
          Memory.account size { buffer := first, slots } := by
        simp only [Memory.account, h.length]
      rw [← hresult, Memory.compact_of_valid_eq hvalid,
        Memory.compact_of_valid_eq (h.valid hvalid), (h.relocates hvalid).gathered_eq, haccount]
      dsimp only
      rw [h.length]
      exact ⟨rfl, rfl, rfl, fun _ _ => rfl⟩

/-- Two live blocks, with a hole between them and a tail, both of zeros. -/
def Memory.swept : Memory where
  buffer := #[0, 0, 7, 8, 0, 0, 1, 0, 0, 0]
  slots := #[some 6, some 2]

/-- The same blocks with bytes of every kind around them. -/
def Memory.littered : Memory where
  buffer := #[9, 9, 7, 8, 0, 4, 1, 0, 5, 5]
  slots := Memory.swept.slots

theorem compact_of_agreesOn_littered :
    (Memory.littered.compact .two).result = (Memory.swept.compact .two).result ∧
      (Memory.littered.compact .two).memory.buffer = (Memory.swept.compact .two).memory.buffer := by
  have hresult : (Memory.swept.compact .two).result =
      .ok { blockSize := .two, liveBlocks := 2, movedBlocks := 2, liveBytes := 4,
            freedBytes := 6 } := rfl
  have hagree : Buffer.AgreesOn .two Memory.swept.slots Memory.swept.buffer
      Memory.littered.buffer := by
    refine ⟨rfl, fun offset ho _ _ place hle hlt => ?_⟩
    have hoffset : offset = 6 ∨ offset = 2 := by simpa [Memory.swept] using ho
    have hbytes : BlockSize.two.bytes = 2 := rfl
    have hplaces : place = 2 ∨ place = 3 ∨ place = 6 ∨ place = 7 := by omega
    rcases hplaces with rfl | rfl | rfl | rfl <;> rfl
  obtain ⟨hsame, -, -, hbuffer⟩ := compact_of_agreesOn hagree
  exact ⟨hsame, hbuffer _ hresult⟩

end Compaction

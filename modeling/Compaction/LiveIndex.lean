import Std.Data.TreeMap

/-!
# The index of live blocks

A block is live when a slot designates it. The index maps the offset of each live block to the
slots that designate it: blocks in ascending order of their offsets, which is the order they are
packed in, and the slots of one block in ascending order too.
-/

namespace Compaction

/-- The live blocks by offset, each with the slots that designate it. -/
abbrev LiveIndex := Std.TreeMap Nat (Array Nat)

namespace LiveIndex

/-- Notes that `slot` designates the block at `offset`. -/
def note (index : LiveIndex) (offset slot : Nat) : LiveIndex :=
  index.alter offset fun holders => some ((holders.getD #[]).push slot)

/-- The index of slots that designate the given offsets, slot 0 the first of them. -/
def ofOffsets (offsets : List Nat) : LiveIndex :=
  offsets.zipIdx.foldl (fun index (offset, slot) => index.note offset slot) ∅

/-- The slots noted for the block at `offset`, none where it is not live. -/
def holders (index : LiveIndex) (offset : Nat) : List Nat :=
  (index[offset]?.getD #[]).toList

/-! ## What the index holds -/

theorem holders_note (index : LiveIndex) (offset slot other : Nat) :
    (index.note offset slot).holders other =
      if offset = other then index.holders other ++ [slot] else index.holders other := by
  by_cases h : offset = other
  · subst h
    simp [holders, note]
  · simp [holders, note, Std.TreeMap.getElem?_alter, h]

theorem mem_note (index : LiveIndex) (offset slot other : Nat) :
    other ∈ index.note offset slot ↔ offset = other ∨ other ∈ index := by
  rw [note, Std.TreeMap.mem_alter]
  by_cases h : offset = other <;> simp [h]

/-- The slots of a block are those that hold its offset, in ascending order. -/
theorem holders_ofOffsets (offsets : List Nat) (offset : Nat) :
    (ofOffsets offsets).holders offset =
      (offsets.zipIdx.filter fun entry => entry.1 = offset).map Prod.snd := by
  suffices h : ∀ (entries : List (Nat × Nat)) (index : LiveIndex),
      (entries.foldl (fun index (offset, slot) => index.note offset slot) index).holders offset =
        index.holders offset ++ (entries.filter fun entry => entry.1 = offset).map Prod.snd by
    rw [ofOffsets, h]
    simp [holders]
  intro entries
  induction entries with
  | nil => simp
  | cons entry rest ih =>
      intro index
      rw [List.foldl_cons, ih, holders_note, List.filter_cons]
      by_cases h : entry.1 = offset <;> simp [h]

/-- A block is live when a slot holds its offset. -/
theorem mem_ofOffsets {offsets : List Nat} {offset : Nat} :
    offset ∈ ofOffsets offsets ↔ offset ∈ offsets := by
  suffices h : ∀ (entries : List (Nat × Nat)) (index : LiveIndex),
      offset ∈ entries.foldl (fun index (offset, slot) => index.note offset slot) index ↔
        offset ∈ index ∨ offset ∈ entries.map Prod.fst by
    rw [ofOffsets, h, List.zipIdx_map_fst]
    simp
  intro entries
  induction entries with
  | nil => simp
  | cons entry rest ih =>
      intro index
      rw [List.foldl_cons, ih, mem_note, List.map_cons, List.mem_cons]
      by_cases h : entry.1 = offset
      · simp [h]
      · simp [h, Ne.symm h]

/-- The blocks are met in strictly ascending order of their offsets. -/
theorem pairwise_keys (index : LiveIndex) : index.keys.Pairwise (· < ·) := by
  have ordered := Std.TreeMap.ordered_keys (t := index)
  simpa [Nat.compare_eq_lt] using ordered

end LiveIndex

end Compaction

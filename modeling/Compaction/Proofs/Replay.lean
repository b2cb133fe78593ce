import Compaction.Proofs.FixedPoint
import Compaction.Proofs.FrontEnd

/-!
# What the program prints can be typed again

The two lines that a run prints are spellings of the memory it leaves, so they can be handed to the
program as its arguments. For that no number may have grown past a word: those that are read fit
into one, and a compaction moves no block back.

The compaction then starts from a memory that has been compacted by the same width, and leaves it as
it is. An empty buffer never comes so far, and is left alone the second time as it was the first.
-/

namespace Compaction

open Text

/-! ## Numbers that were read fit into a word -/

namespace Command

/-- A computation that succeeded did so in its first step and in what comes behind it. -/
theorem exists_of_bind_eq_ok {α β : Type} {first : Except CommandFault α}
    {next : α → Except CommandFault β} {result : β} (h : first >>= next = .ok result) :
    ∃ value, first = .ok value ∧ next value = .ok result := by
  cases first with
  | error fault => cases h
  | ok value => exact ⟨value, rfl, h⟩

theorem le_of_readWidth {text : String} {width : Nat} (h : readWidth text = .ok width) :
    width ≤ wordLimit := by
  unfold readWidth at h
  split at h
  · rename_i hread
    cases h
    exact Numeral.le_of_read hread
  · cases h

/-- The width settled on is the one before the options or one of those that were read. -/
theorem le_of_settleWidth {start width : Nat} {tokens : List Token} (hstart : start ≤ wordLimit)
    (h : settleWidth start tokens = .ok (some width)) : width ≤ wordLimit := by
  induction tokens generalizing start with
  | nil =>
      cases h
      exact hstart
  | cons token rest ih =>
      cases token with
      | help => cases h
      | operand text => exact ih hstart h
      | width value =>
          cases value with
          | none => cases h
          | some text =>
              unfold settleWidth at h
              split at h
              · -- the width of this option counts from here on
                rename_i hread
                exact ih (le_of_readWidth hread) h
              · cases h

theorem le_of_readReference {text : String} {offset : Nat}
    (h : readReference text = .ok (some offset)) : offset ≤ wordLimit := by
  unfold readReference at h
  split at h
  · cases h
  · split at h
    · rename_i hread
      cases h
      exact Numeral.le_of_read hread
    · cases h

theorem le_of_mem_mapM_readReference {texts : List String} {references : List Reference}
    (h : texts.mapM readReference = .ok references) {offset : Nat}
    (ho : some offset ∈ references) : offset ≤ wordLimit := by
  have hread : List.Forall₂ (fun reference text =>
      (∀ held, reference = some held → held ≤ wordLimit) ∧ readReference text = .ok reference)
      references texts :=
    List.Forall₂.flip ((mapM_eq_ok_iff.mp h).imp fun text reference htext =>
      ⟨fun held heq => le_of_readReference (heq ▸ htext), htext⟩)
  exact ((List.forall₂_and_left references texts).mp hread).1 _ ho offset rfl

theorem le_of_readMemory {operands : List String} {memory : Memory}
    (h : readMemory operands = .ok memory) {offset : Nat} (ho : some offset ∈ memory.slots) :
    offset ≤ wordLimit := by
  cases operands with
  | nil => cases h
  | cons text references =>
      obtain ⟨buffer, -, h⟩ := exists_of_bind_eq_ok h
      obtain ⟨slots, hslots, h⟩ := exists_of_bind_eq_ok h
      cases h
      exact le_of_mem_mapM_readReference hslots (List.mem_toArray.mp ho)

theorem exists_of_ofArguments {arguments : List String} {width : Nat} {memory : Memory}
    (h : ofArguments arguments = .ok (.compact width memory)) :
    ∃ operands, settleWidth 1 (Token.ofArguments arguments) = .ok (some width) ∧
      readMemory operands = .ok memory := by
  rw [ofArguments] at h
  unfold ofTokens at h
  split at h
  · cases h
  · cases h
  · rename_i settled hsettle
    cases hmemory : readMemory ((Token.ofArguments arguments).filterMap Token.operand?) with
    | error fault =>
        rw [hmemory] at h
        cases h
    | ok found =>
        rw [hmemory] at h
        cases h
        exact ⟨_, hsettle, hmemory⟩

theorem lt_size_of_le_wordLimit {number : Nat} (h : number ≤ wordLimit) : number < UInt64.size :=
  Nat.lt_of_le_pred (by decide) h

/-- **The numbers of a command fit into words.** -/
theorem lt_size_of_ofArguments {arguments : List String} {width : Nat} {memory : Memory}
    (h : ofArguments arguments = .ok (.compact width memory)) :
    width < UInt64.size ∧ ∀ offset, some offset ∈ memory.slots → offset < UInt64.size := by
  obtain ⟨operands, hsettle, hmemory⟩ := exists_of_ofArguments h
  have hone : 1 ≤ wordLimit := by decide
  refine ⟨?_, fun offset ho => ?_⟩
  · exact lt_size_of_le_wordLimit (le_of_settleWidth hone hsettle)
  · exact lt_size_of_le_wordLimit (le_of_readMemory hmemory ho)

/-! ## What is printed is a spelling -/

theorem renders_printed (width : Nat) (memory : Memory) :
    Renders width memory ("-b" :: toString width :: Hex.encode memory.buffer.toList ::
      memory.slots.toList.map Reference.text) := by
  have hreferences : List.Forall₂ Reference.Spells memory.slots.toList
      (memory.slots.toList.map Reference.text) :=
    List.forall₂_map_right_iff.mpr
      (List.forall₂_same.mpr fun reference _ => reference.spells_text)
  -- the option stands in front of all operands
  exact @Renders.intro width memory "-b" _ _ _ [] _ (.inl rfl) (Numeral.spells_toString width)
    (Hex.spells_encode memory.buffer.toList) hreferences rfl

end Command

/-! ## The second compaction -/

namespace Memory

variable {width : Nat} {memory : Memory}

/-- No slot holds more after a request than some slot held before it. -/
theorem exists_le_of_mem_slots_compactWidth {offset : Nat}
    (ho : some offset ∈ (memory.compactWidth width).memory.slots) :
    ∃ held, some held ∈ memory.slots ∧ offset ≤ held := by
  by_cases hempty : memory.buffer.size = 0
  · rw [compactWidth_of_empty hempty] at ho
    exact ⟨offset, ho, Nat.le_refl _⟩
  · rcases compactWidth_cases hempty width with
      ⟨fault, hrejected⟩ | ⟨size, -, hvalid, -, hmemory⟩
    · rw [hrejected] at ho
      exact ⟨offset, ho, Nat.le_refl _⟩
    · rw [hmemory, hvalid.relocates.slots, Array.mem_map] at ho
      obtain ⟨reference, hreference, hmove⟩ := ho
      obtain ⟨held, rfl, -⟩ := hvalid.sound reference hreference
      obtain rfl := Option.some.inj hmove
      exact ⟨held, hreference, hvalid.relocates.le held hreference⟩

/-- **A request that succeeded succeeds again, and changes nothing.** -/
theorem compactWidth_again {report : Report}
    (h : (memory.compactWidth width).result = .ok report) :
    ∃ again, ((memory.compactWidth width).memory.compactWidth width).result = .ok again ∧
      ((memory.compactWidth width).memory.compactWidth width).memory =
        (memory.compactWidth width).memory := by
  by_cases hempty : memory.buffer.size = 0
  · rw [compactWidth_of_empty hempty, Outcome.untouched, compactWidth_of_empty hempty]
    exact ⟨_, rfl, rfl⟩
  · rcases compactWidth_cases hempty width with
      ⟨fault, hrejected⟩ | ⟨size, hwidth, hvalid, -, hmemory⟩
    · rw [hrejected] at h
      cases h
    · have hne : (memory.gathered size).buffer.size ≠ 0 := hvalid.size_gathered.symm ▸ hempty
      -- the packed memory is valid for the same blocks, and packing it again gives the same
      rw [hmemory, compactWidth_of_supported hne hwidth, compact_of_valid_eq hvalid.gathered]
      exact ⟨_, rfl, hvalid.relocates.gathered_eq⟩

end Memory

theorem Exit.exists_ok_of_code_eq_zero {width : Nat} {memory : Memory}
    (h : (Exit.ofCommand (.compact width memory)).code = 0) :
    ∃ report, (memory.compactWidth width).result = .ok report := by
  cases hresult : (memory.compactWidth width).result with
  | ok report => exact ⟨report, rfl⟩
  | error fault =>
      rw [Exit.ofCommand_of_error hresult] at h
      have hone : (1 : UInt32) ≠ 0 := by decide
      exact absurd h hone

/-- Arguments that spell what a successful compaction left behind change nothing about it. -/
theorem Exit.ofArguments_of_renders_compacted {width : Nat} {memory : Memory} {report : Report}
    {arguments : List String} (hwidth : width < UInt64.size)
    (hslots : ∀ offset, some offset ∈ memory.slots → offset < UInt64.size)
    (hok : (memory.compactWidth width).result = .ok report)
    (h : Command.Renders width (memory.compactWidth width).memory arguments) :
    Exit.ofArguments arguments = { stdout := (memory.compactWidth width).memory.text } := by
  -- no block has moved back, so the offsets still fit into words
  have hafter : ∀ offset, some offset ∈ (memory.compactWidth width).memory.slots →
      offset < UInt64.size := by
    intro offset ho
    obtain ⟨held, hheld, hle⟩ := Memory.exists_le_of_mem_slots_compactWidth ho
    exact Nat.lt_of_le_of_lt hle (hslots held hheld)
  obtain ⟨again, hagain, hsame⟩ := Memory.compactWidth_again hok
  rw [Exit.ofArguments_of_ok (Command.ofArguments_of_renders hwidth hafter h),
    Exit.ofCommand_of_ok hagain, hsame]

/--
**What the program prints, typed again, is printed again.**

Take any arguments that ask for a compaction, by whatever width, and a run on them that ends with
code 0. It has printed the bytes of a buffer and a list of references. The program run on that
width, those bytes and those references ends with code 0 and prints the same.
-/
theorem exit_replayed {arguments : List String} {width : Nat} {memory after : Memory}
    (hcommand : Command.ofArguments arguments = .ok (.compact width memory))
    (hcode : (Exit.ofArguments arguments).code = 0)
    (hafter : (memory.compactWidth width).memory = after) :
    (Exit.ofArguments arguments).stdout =
        "buffer:     " ++ Hex.encode after.buffer.toList ++
        "\nreferences: [" ++ ", ".intercalate (after.slots.toList.map Reference.text) ++ "]\n" ∧
      (Exit.ofArguments ("-b" :: toString width :: Hex.encode after.buffer.toList ::
        after.slots.toList.map Reference.text)).code = 0 ∧
      (Exit.ofArguments ("-b" :: toString width :: Hex.encode after.buffer.toList ::
        after.slots.toList.map Reference.text)).stdout = (Exit.ofArguments arguments).stdout := by
  subst hafter
  obtain ⟨hwidth, hslots⟩ := Command.lt_size_of_ofArguments hcommand
  rw [Exit.ofArguments_of_ok hcommand] at hcode ⊢
  obtain ⟨report, hok⟩ := Exit.exists_ok_of_code_eq_zero hcode
  rw [Exit.ofCommand_of_ok hok, Exit.ofArguments_of_renders_compacted hwidth hslots hok
    (Command.renders_printed width _)]
  exact ⟨rfl, rfl, rfl⟩

/-- Nothing but a null reference, which no width of blocks is too odd for. -/
def Memory.hollow : Memory where
  slots := #[none]

theorem exit_replayed_hollow_and_typed :
    (Exit.ofArguments ["-b", "3", "", "null"]).stdout =
        (Exit.ofArguments ["_", "-b", "3", "Null"]).stdout ∧
      (Exit.ofArguments ["-b", "2", "FF AA BB CC 00 00", "2", "0"]).stdout =
        (Exit.ofArguments ["fF AA_0 000bBc C", "004", "--block-size", "02", "0"]).stdout := by
  have hhollow : Command.ofArguments ["_", "-b", "3", "Null"] = .ok (.compact 3 Memory.hollow) := by
    decide +kernel
  have htyped : Command.ofArguments ["fF AA_0 000bBc C", "004", "--block-size", "02", "0"] =
      .ok (.compact 2 Memory.typed) := by decide +kernel
  have hleft : (Memory.hollow.compactWidth 3).memory = Memory.hollow := rfl
  have hpacked : (Memory.typed.compactWidth 2).memory =
      { buffer := #[0xFF, 0xAA, 0xBB, 0xCC, 0, 0], slots := #[some 2, some 0] } := rfl
  have hbytes : Hex.encode #[0xFF, 0xAA, 0xBB, 0xCC, 0, 0].toList = "FF AA BB CC 00 00" := by
    decide +kernel
  obtain ⟨-, -, hempty⟩ := exit_replayed hhollow (by decide +kernel) hleft
  obtain ⟨-, -, hmoved⟩ := exit_replayed htyped (by decide +kernel) hpacked
  rw [hbytes] at hmoved
  exact ⟨hempty, hmoved⟩

end Compaction

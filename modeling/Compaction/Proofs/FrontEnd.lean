import Compaction.Proofs.Acceptance
import Compaction.Proofs.Spelling

/-!
# The program compacts what was typed

A memory and a width can be typed in many ways: each number, the bytes and the null references in
any of their spellings, and the option for the width before, between or behind the operands.
`Command.Renders` says which arguments are meant. None of the operands can be taken for an option,
because an option starts with a dash and no spelling has one.

Whichever way it is typed, the program reads the same command, and prints the memory that the
compaction leaves or the fault that it meets.
-/

namespace Compaction

open Text

/-- The arguments ask for the compaction of a memory with blocks of `width` bytes. -/
inductive Command.Renders (width : Nat) (memory : Memory) : List String → Prop where
  | intro {flag value buffer : String} {references before after : List String}
      (isOption : flag = "-b" ∨ flag = "--block-size")
      (spellsWidth : Numeral.Spells width value)
      (spellsBuffer : Hex.Spells memory.buffer.toList buffer)
      (spellReferences : List.Forall₂ Reference.Spells memory.slots.toList references)
      -- the option may stand anywhere among the operands
      (operands : before ++ after = buffer :: references) :
      Renders width memory (before ++ flag :: value :: after)

/-! ## Spellings are no options -/

/-- Characters that differ in case only are alike in what their small letters are. -/
theorem Text.SameLetters.exists_of_mem {first second : List Char} (h : SameLetters first second)
    {char : Char} (hchar : char ∈ first) : ∃ other ∈ second, other.toLower = char.toLower := by
  have hmem : char.toLower ∈ first.map Char.toLower := List.mem_map_of_mem hchar
  rw [show first.map Char.toLower = second.map Char.toLower from h] at hmem
  exact List.mem_map.mp hmem

theorem Text.Numeral.Spells.dash_notMem {number : Nat} {text : String} (h : Spells number text) :
    '-' ∉ text.toList := by
  intro hdash
  exact absurd (h.digits '-' hdash) (by decide)

theorem Reference.Spells.dash_notMem {reference : Reference} {text : String}
    (h : reference.Spells text) : '-' ∉ text.toList := by
  cases reference with
  | none =>
      intro hdash
      have hmem : '-'.toLower ∈ text.toList.map Char.toLower := List.mem_map_of_mem hdash
      rw [show text.toList.map Char.toLower = "null".toList.map Char.toLower from h] at hmem
      exact absurd hmem (by decide)
  | some offset => exact Text.Numeral.Spells.dash_notMem h

theorem Reference.Spells.forall_dash_notMem {references : List Reference} {texts : List String}
    (h : List.Forall₂ Spells references texts) : ∀ text ∈ texts, '-' ∉ text.toList := by
  induction h with
  | nil => exact fun text ht => absurd ht List.not_mem_nil
  | cons hfirst _ ih => exact List.forall_mem_cons.mpr ⟨hfirst.dash_notMem, ih⟩

theorem Text.Hex.Spells.dash_notMem {bytes : List UInt8} {text : String} (h : Spells bytes text) :
    '-' ∉ text.toList := by
  intro hdash
  -- a dash separates nothing, so it would have to be one of the digits
  have hkept : '-' ∈ text.toList.filter fun char => !isSeparator char :=
    List.mem_filter.mpr ⟨hdash, by decide⟩
  obtain ⟨other, hother, heq⟩ := SameLetters.exists_of_mem h hkept
  have hall : ∀ value ∈ List.range 16, (digit value).toLower ≠ '-'.toLower := by decide
  obtain ⟨byte, -, hdigit⟩ := List.mem_flatMap.mp hother
  have hbyte : byte.toNat < 256 := byte.toNat_lt
  rw [byteDigits, List.mem_cons, List.mem_singleton] at hdigit
  rcases hdigit with rfl | rfl
  · exact hall _ (List.mem_range.mpr (by omega)) heq
  · exact hall _ (List.mem_range.mpr (by omega)) heq

/-! ## Options among the operands -/

namespace Token

theorem ofArguments_operands {operands rest : List String}
    (h : ∀ text ∈ operands, '-' ∉ text.toList) :
    ofArguments (operands ++ rest) = operands.map .operand ++ ofArguments rest := by
  induction operands with
  | nil => rfl
  | cons text others ih =>
      obtain ⟨htext, hothers⟩ := List.forall_mem_cons.mp h
      have hnone : text ∉ ["-b", "--block-size", "-h", "--help"] := by
        intro hoption
        have hall : ∀ option ∈ ["-b", "--block-size", "-h", "--help"], '-' ∈ option.toList := by
          decide
        exact htext (hall text hoption)
      rw [List.cons_append, ofArguments_operand hnone, ih hothers]
      rfl

theorem ofArguments_eq_map {operands : List String} (h : ∀ text ∈ operands, '-' ∉ text.toList) :
    ofArguments operands = operands.map .operand := by
  have hopen := @ofArguments_operands operands [] h
  rwa [List.append_nil, ofArguments, List.append_nil] at hopen

theorem filterMap_operand? (texts : List String) :
    (texts.map Token.operand).filterMap operand? = texts := by
  rw [List.filterMap_map]
  exact List.filterMap_some

end Token

namespace Command

theorem settleWidth_operands (width : Nat) (texts : List String) (rest : List Token) :
    settleWidth width (texts.map .operand ++ rest) = settleWidth width rest := by
  induction texts with
  | nil => rfl
  | cons text others ih => exact ih

theorem settleWidth_of_operands (width : Nat) (texts : List String) :
    settleWidth width (texts.map .operand) = .ok (some width) := by
  rw [← List.append_nil (texts.map _), settleWidth_operands, settleWidth]

/-- **Arguments are read as the command they ask for.** -/
theorem ofArguments_of_renders {width : Nat} {memory : Memory} {arguments : List String}
    (hwidth : width < UInt64.size)
    (hslots : ∀ offset, some offset ∈ memory.slots → offset < UInt64.size)
    (h : Renders width memory arguments) : ofArguments arguments = .ok (.compact width memory) := by
  obtain @⟨flag, value, buffer, references, before, after, hoption, hvalue, hbuffer, hreferences,
    hoperands⟩ := h
  have hdash : ∀ text ∈ before ++ after, '-' ∉ text.toList := by
    rw [hoperands]
    exact List.forall_mem_cons.mpr
      ⟨hbuffer.dash_notMem, Reference.Spells.forall_dash_notMem hreferences⟩
  have htokens : Token.ofArguments (before ++ flag :: value :: after) =
      before.map .operand ++ .width (some value) :: after.map .operand := by
    rw [Token.ofArguments_operands fun text ht => hdash text (List.mem_append_left _ ht),
      Token.ofArguments_width hoption,
      Token.ofArguments_eq_map fun text ht => hdash text (List.mem_append_right _ ht)]
  have hsettle : settleWidth 1 (before.map .operand ++ .width (some value) :: after.map .operand) =
      .ok (some width) := by
    rw [settleWidth_operands, settleWidth, readWidth_of_spells hvalue (Nat.le_sub_one_of_lt hwidth)]
    exact settleWidth_of_operands width after
  have hmemory : readMemory (before ++ after) = .ok memory := by
    rw [hoperands]
    exact readMemory_of_spells hbuffer hreferences
      fun offset ho => Nat.le_sub_one_of_lt (hslots offset ho)
  rw [ofArguments, htokens, ofTokens, hsettle]
  dsimp only
  -- without the option the operands are side by side again
  rw [List.filterMap_append, Token.filterMap_operand?, List.filterMap_cons_none rfl,
    Token.filterMap_operand?, hmemory]
  rfl

end Command

/-! ## What the program prints -/

namespace Exit

variable {width : Nat} {memory : Memory}

theorem ofArguments_of_ok {arguments : List String} {command : Command}
    (h : Command.ofArguments arguments = .ok command) :
    ofArguments arguments = ofCommand command := by
  rw [ofArguments, h]

theorem ofCommand_of_ok {report : Report} (h : (memory.compactWidth width).result = .ok report) :
    ofCommand (.compact width memory) = { stdout := (memory.compactWidth width).memory.text } := by
  rw [ofCommand, ofOutcome, h]

theorem ofCommand_of_error {fault : Fault} (h : (memory.compactWidth width).result = .error fault) :
    ofCommand (.compact width memory) = failure (.rejected fault) := by
  rw [ofCommand, ofOutcome, h]

theorem stderr_failure_rejected (fault : Fault) :
    (failure (.rejected fault)).stderr =
      "Error: compaction rejected: " ++ fault.message ++ "\n" := by
  have hwords : "Error: compaction rejected: " = "Error: " ++ "compaction rejected: " := by decide
  rw [hwords, @String.append_assoc "Error: "]
  rfl

end Exit

/--
**The program is a faithful front end.**

Take any width and any memory, all numbers of which fit into words of 64 bits, and any arguments
that ask for its compaction. If the compaction succeeds, the program ends with code 0 and prints the
buffer and the references it leaves. If it meets a fault, the program ends with code 1, prints
nothing, and reports the fault in its words.
-/
theorem exit_of_renders {width : Nat} {memory : Memory} {arguments : List String}
    (hwidth : width < UInt64.size)
    (hslots : ∀ offset, some offset ∈ memory.slots → offset < UInt64.size)
    (h : Command.Renders width memory arguments) :
    (∀ report, (memory.compactWidth width).result = .ok report →
        (Exit.ofArguments arguments).code = 0 ∧
        (Exit.ofArguments arguments).stdout =
          "buffer:     " ++ Hex.encode (memory.compactWidth width).memory.buffer.toList ++
          "\nreferences: [" ++
          ", ".intercalate
            ((memory.compactWidth width).memory.slots.toList.map Reference.text) ++ "]\n") ∧
      ∀ fault, (memory.compactWidth width).result = .error fault →
        (Exit.ofArguments arguments).code = 1 ∧
        (Exit.ofArguments arguments).stdout = "" ∧
        (Exit.ofArguments arguments).stderr =
          "Error: compaction rejected: " ++ fault.message ++ "\n" := by
  have hcommand := Command.ofArguments_of_renders hwidth hslots h
  rw [Exit.ofArguments_of_ok hcommand]
  refine ⟨fun report hok => ?_, fun fault hfault => ?_⟩
  · rw [Exit.ofCommand_of_ok hok]
    exact ⟨rfl, rfl⟩
  · rw [Exit.ofCommand_of_error hfault]
    exact ⟨rfl, rfl, Exit.stderr_failure_rejected fault⟩

/-- Two blocks of two bytes, one of them behind a hole. -/
def Memory.typed : Memory where
  buffer := #[0xFF, 0xAA, 0, 0, 0xBB, 0xCC]
  slots := #[some 4, some 0]

theorem exit_of_renders_typed :
    (Exit.ofArguments ["fF AA_0 000bBc C", "004", "--block-size", "02", "0"]).code = 0 ∧
      (Exit.ofArguments ["fF AA_0 000bBc C", "004", "--block-size", "02", "0"]).stdout =
        "buffer:     FF AA BB CC 00 00\nreferences: [2, 0]\n" := by
  have hrenders : Command.Renders 2 Memory.typed
      (["fF AA_0 000bBc C", "004"] ++ "--block-size" :: "02" :: ["0"]) :=
    .intro (.inr rfl) (by decide) (by decide) (.cons (by decide) (.cons (by decide) .nil)) rfl
  have hslots : ∀ offset, some offset ∈ Memory.typed.slots → offset < UInt64.size := by
    intro offset ho
    simp only [Memory.typed, List.mem_toArray, List.mem_cons, List.not_mem_nil, Option.some.injEq,
      or_false] at ho
    rcases ho with rfl | rfl <;> decide
  have hresult : (Memory.typed.compactWidth 2).result =
      .ok { blockSize := .two, liveBlocks := 2, movedBlocks := 1, liveBytes := 4,
            freedBytes := 2 } := rfl
  have hmemory : (Memory.typed.compactWidth 2).memory =
      { buffer := #[0xFF, 0xAA, 0xBB, 0xCC, 0, 0], slots := #[some 2, some 0] } := rfl
  obtain ⟨hok, -⟩ := exit_of_renders (by decide) hslots hrenders
  obtain ⟨hcode, hprinted⟩ := hok _ hresult
  rw [hmemory] at hprinted
  refine ⟨hcode, hprinted.trans ?_⟩
  decide +kernel

end Compaction

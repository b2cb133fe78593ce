/-!
# Tokens of the command line

What each argument is there for, found out before any of them is read. The option for the block
size takes the argument after it whatever that looks like, so what follows it is never an option.
-/

namespace Compaction

/-- What an argument is there for. -/
inductive Token where
  /-- The option for the block size, with its value unless the arguments end behind it. -/
  | width (value : Option String)
  /-- The option for help. -/
  | help
  /-- Neither an option nor the value of one. -/
  | operand (text : String)
  deriving DecidableEq, Repr

namespace Token

/-- The tokens of the arguments, in their order. -/
def ofArguments : List String → List Token
  | [] => []
  | argument :: rest =>
    if argument = "-b" ∨ argument = "--block-size" then
      match rest with
      | [] => [.width none]
      | value :: rest => .width (some value) :: ofArguments rest
    else if argument = "-h" ∨ argument = "--help" then
      .help :: ofArguments rest
    else
      .operand argument :: ofArguments rest

theorem ofArguments_width {flag value : String} {rest : List String}
    (h : flag = "-b" ∨ flag = "--block-size") :
    ofArguments (flag :: value :: rest) = .width (some value) :: ofArguments rest := by
  rw [ofArguments, if_pos h]

theorem ofArguments_help {flag : String} {rest : List String} (h : flag = "-h" ∨ flag = "--help") :
    ofArguments (flag :: rest) = .help :: ofArguments rest := by
  have hwidth : ¬(flag = "-b" ∨ flag = "--block-size") := by
    rcases h with rfl | rfl <;> decide
  rw [ofArguments.eq_def]
  dsimp only
  rw [if_neg hwidth, if_pos h]

theorem ofArguments_operand {text : String} {rest : List String}
    (h : text ∉ ["-b", "--block-size", "-h", "--help"]) :
    ofArguments (text :: rest) = .operand text :: ofArguments rest := by
  simp only [List.mem_cons, List.not_mem_nil, or_false, not_or] at h
  obtain ⟨hb, hblock, hh, hlong⟩ := h
  rw [ofArguments.eq_def]
  dsimp only
  rw [if_neg (not_or.mpr ⟨hb, hblock⟩), if_neg (not_or.mpr ⟨hh, hlong⟩)]

/-- The text of an operand. -/
def operand? : Token → Option String
  | .operand text => some text
  | _ => none

end Token

end Compaction

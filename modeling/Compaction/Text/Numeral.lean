/-!
# Numerals

Reading a natural number in a given base, up to a given limit. The digits are ASCII, letters in
either case, after at most one plus sign. The text is read from left to right and the first thing
wrong with it decides: a character that is no digit, or a digit that takes the value past the
limit.
-/

namespace Compaction.Text

/-- Why a text is not a number that may be written there. -/
inductive NumeralFault where
  /-- There is no text. -/
  | empty
  /-- A character is not a digit of the base, or a sign has no digits after it. -/
  | invalidDigit
  /-- The number is above the limit. -/
  | tooLarge
  deriving DecidableEq, Repr

/-- The fault in words. -/
def NumeralFault.message : NumeralFault → String
  | empty => "cannot parse integer from empty string"
  | invalidDigit => "invalid digit found in string"
  | tooLarge => "number too large to fit in target type"

namespace Numeral

/-- What a digit counts: ten to thirty-five for the letters. -/
def digitValue? (char : Char) : Option Nat :=
  if '0' ≤ char ∧ char ≤ '9' then some (char.toNat - 48)
  else if 'a' ≤ char ∧ char ≤ 'z' then some (char.toNat - 87)
  else if 'A' ≤ char ∧ char ≤ 'Z' then some (char.toNat - 55)
  else none

/-- What a digit of the given base counts. -/
def digit? (base : Nat) (char : Char) : Option Nat :=
  (digitValue? char).filter (· < base)

/-- Reads digits behind those that made up `value`. -/
def readDigits (base limit value : Nat) : List Char → Except NumeralFault Nat
  | [] => .ok value
  | char :: rest =>
    match digit? base char with
    | none => .error .invalidDigit
    | some digit =>
      if limit < value * base + digit then .error .tooLarge
      else readDigits base limit (value * base + digit) rest

/-- Reads a whole numeral, of a value up to `limit`. -/
def read (base limit : Nat) : List Char → Except NumeralFault Nat
  | [] => .error .empty
  | ['+'] => .error .invalidDigit
  | '+' :: digits => readDigits base limit 0 digits
  | digits => readDigits base limit 0 digits

/-- What is read from digits lies between the value so far and the limit. -/
theorem le_of_readDigits {base limit value n : Nat} {digits : List Char} (hv : value ≤ limit)
    (h : readDigits base limit value digits = .ok n) : n ≤ limit := by
  induction digits generalizing value with
  | nil =>
      rw [readDigits, Except.ok.injEq] at h
      exact h ▸ hv
  | cons char rest ih =>
      rw [readDigits] at h
      split at h
      · cases h
      · split at h
        · cases h
        · next hl => exact ih (Nat.le_of_not_lt hl) h

/-- Whatever is read is within the limit. -/
theorem le_of_read {base limit n : Nat} {text : List Char} (h : read base limit text = .ok n) :
    n ≤ limit := by
  unfold read at h
  split at h
  · cases h
  · cases h
  · exact le_of_readDigits (Nat.zero_le _) h
  · exact le_of_readDigits (Nat.zero_le _) h

end Numeral

end Compaction.Text

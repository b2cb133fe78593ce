import Compaction.CommandLine.Exit
import Mathlib.Data.List.Forall2

/-!
# Spellings

One number, one sequence of bytes and one reference can be written in many ways: with zeros in
front, with letters of either case, with blanks and underscores between the digits. The relations
here say which texts are meant, without reading them. Each of these texts is read as what it spells,
and what the program prints is among them. Of a number nothing else is read, but for a plus sign in
front of its digits (`Text.Numeral.read_eq_ok_iff`).
-/

namespace Compaction

open Text

/-- The same characters, but for the case of letters. -/
def Text.SameLetters (first second : List Char) : Prop :=
  first.map Char.toLower = second.map Char.toLower

instance (first second : List Char) : Decidable (SameLetters first second) :=
  inferInstanceAs (Decidable (_ = _))

/-- The text is the number in decimal digits. -/
structure Text.Numeral.Spells (number : Nat) (text : String) : Prop where
  nonempty : text.toList ≠ []
  digits : ∀ char ∈ text.toList, char.isDigit = true
  value : Nat.ofDigitChars 10 text.toList 0 = number

theorem Text.Numeral.spells_iff {number : Nat} {text : String} :
    Spells number text ↔ text.toList ≠ [] ∧ text.toList.all Char.isDigit = true ∧
      Nat.ofDigitChars 10 text.toList 0 = number := by
  rw [List.all_eq_true]
  refine ⟨fun h => ⟨h.nonempty, h.digits, h.value⟩, fun h => ?_⟩
  obtain ⟨hne, hdigits, hvalue⟩ := h
  exact ⟨hne, hdigits, hvalue⟩

instance (number : Nat) (text : String) : Decidable (Numeral.Spells number text) :=
  decidable_of_iff _ Numeral.spells_iff.symm

/-- The text is the number in decimal digits, in front of which a plus sign may stand. -/
def Text.Numeral.SpellsSigned (number : Nat) (text : String) : Prop :=
  Spells number text ∨ ∃ digits : String, text.toList = '+' :: digits.toList ∧ Spells number digits

/-- The text is the bytes in two digits each, separators left out. -/
def Text.Hex.Spells (bytes : List UInt8) (text : String) : Prop :=
  SameLetters (text.toList.filter fun char => !isSeparator char) (bytes.flatMap byteDigits)

instance (bytes : List UInt8) (text : String) : Decidable (Hex.Spells bytes text) :=
  inferInstanceAs (Decidable (SameLetters _ _))

/-- The text is the word for the null reference, or the offset in decimal digits. -/
def Reference.Spells : Reference → String → Prop
  | none, text => SameLetters text.toList "null".toList
  | some offset, text => Numeral.Spells offset text

instance : (reference : Reference) → (text : String) → Decidable (reference.Spells text)
  | none, text => inferInstanceAs (Decidable (SameLetters text.toList _))
  | some offset, text => inferInstanceAs (Decidable (Numeral.Spells offset text))

/-! ## Numbers -/

namespace Text.Numeral

theorem digit?_of_isDigit {char : Char} (h : char.isDigit = true) :
    digit? 10 char = some (char.toNat - '0'.toNat) := by
  have hrange : '0' ≤ char ∧ char ≤ '9' := by simpa [Char.isDigit, Char.le_def] using h
  have hhigh : char.toNat ≤ '9'.toNat := hrange.2
  have hten : char.toNat - '0'.toNat < 10 := by
    have hnine : '9'.toNat - '0'.toNat = 9 := rfl
    omega
  rw [digit?, digitValue?, if_pos hrange]
  exact Option.filter_eq_some_iff.mpr ⟨rfl, decide_eq_true hten⟩

theorem isDigit_of_digit? {char : Char} {value : Nat} (h : digit? 10 char = some value) :
    char.isDigit = true ∧ value = char.toNat - '0'.toNat := by
  obtain ⟨hvalue, hlt⟩ := Option.filter_eq_some_iff.mp h
  have hten : value < 10 := of_decide_eq_true hlt
  unfold digitValue? at hvalue
  split at hvalue
  · rename_i hrange
    cases hvalue
    exact ⟨by simpa [Char.isDigit, Char.le_def] using hrange, rfl⟩
  · -- letters of either case count ten or more
    split at hvalue
    · rename_i hsmall
      have hlow : 97 ≤ char.toNat := hsmall.1
      cases hvalue
      omega
    · split at hvalue
      · rename_i hcapital
        have hlow : 65 ≤ char.toNat := hcapital.1
        cases hvalue
        omega
      · cases hvalue

theorem read_of_ne_plus {base limit : Nat} {first : Char} {rest : List Char} (h : first ≠ '+') :
    read base limit (first :: rest) = readDigits base limit 0 (first :: rest) := by
  unfold read
  split
  · rename_i heq
    cases heq
  · rename_i heq
    exact absurd (List.cons.inj heq).1 h
  · rename_i heq
    exact absurd (List.cons.inj heq).1 h
  · rfl

/-- More digits do not make a number smaller. -/
theorem le_ofDigitChars (value : Nat) (digits : List Char) :
    value ≤ Nat.ofDigitChars 10 digits value := by
  induction digits generalizing value with
  | nil => exact Nat.le_refl _
  | cons char rest ih =>
      rw [Nat.ofDigitChars_cons]
      have hrest := ih (10 * value + (char.toNat - '0'.toNat))
      omega

theorem readDigits_of_digits {limit value : Nat} {digits : List Char}
    (h : ∀ char ∈ digits, char.isDigit = true) (hle : Nat.ofDigitChars 10 digits value ≤ limit) :
    readDigits 10 limit value digits = .ok (Nat.ofDigitChars 10 digits value) := by
  induction digits generalizing value with
  | nil => rfl
  | cons char rest ih =>
      obtain ⟨hchar, hrest⟩ := List.forall_mem_cons.mp h
      rw [Nat.ofDigitChars_cons, Nat.mul_comm 10 value] at hle ⊢
      have hmore := le_ofDigitChars (value * 10 + (char.toNat - '0'.toNat)) rest
      rw [readDigits, digit?_of_isDigit hchar]
      dsimp only
      rw [if_neg (by omega), ih hrest hle]

/-- **A numeral is read as the number it spells.** -/
theorem read_of_spells {limit number : Nat} {text : String} (h : Spells number text)
    (hle : number ≤ limit) : read 10 limit text.toList = .ok number := by
  obtain ⟨hne, hdigits, rfl⟩ := h
  have hread := readDigits_of_digits hdigits hle
  cases htext : text.toList with
  | nil => exact absurd htext hne
  | cons first rest =>
      rw [htext] at hread hdigits
      -- reading skips a sign in front, and there is none
      have hplus : first ≠ '+' := by
        rintro rfl
        exact absurd (hdigits '+' List.mem_cons_self) (by decide)
      rw [read_of_ne_plus hplus]
      exact hread

theorem digits_of_readDigits {limit value number : Nat} {digits : List Char}
    (h : readDigits 10 limit value digits = .ok number) :
    (∀ char ∈ digits, char.isDigit = true) ∧ Nat.ofDigitChars 10 digits value = number := by
  induction digits generalizing value with
  | nil =>
      cases h
      exact ⟨fun char hchar => absurd hchar List.not_mem_nil, rfl⟩
  | cons char rest ih =>
      rw [readDigits] at h
      split at h
      · cases h
      · rename_i digit hdigit
        obtain ⟨hchar, rfl⟩ := isDigit_of_digit? hdigit
        split at h
        · cases h
        · obtain ⟨hrest, hvalue⟩ := ih h
          rw [Nat.ofDigitChars_cons, Nat.mul_comm 10 value]
          exact ⟨List.forall_mem_cons.mpr ⟨hchar, hrest⟩, hvalue⟩

theorem spells_of_readDigits {limit number : Nat} {text : String} (hne : text.toList ≠ [])
    (h : readDigits 10 limit 0 text.toList = .ok number) : Spells number text := by
  obtain ⟨hdigits, hvalue⟩ := digits_of_readDigits h
  exact ⟨hne, hdigits, hvalue⟩

/-- **What can be read is what spells a number that is within the limit.** -/
theorem read_eq_ok_iff {limit number : Nat} {text : String} :
    read 10 limit text.toList = .ok number ↔ SpellsSigned number text ∧ number ≤ limit := by
  refine ⟨fun h => ⟨?_, le_of_read h⟩, fun h => ?_⟩
  · unfold read at h
    split at h
    · cases h
    · cases h
    · rename_i digits hne hsigned
      have htext : (String.ofList digits).toList = digits := String.toList_ofList
      rw [← htext] at h hne hsigned
      exact .inr ⟨String.ofList digits, hsigned, spells_of_readDigits hne h⟩
    · rename_i hempty _ _
      exact .inl (spells_of_readDigits hempty h)
  · obtain ⟨hspells | ⟨digits, hsigned, hspells⟩, hle⟩ := h
    · exact read_of_spells hspells hle
    · -- digits are read behind the sign as they would be on their own
      obtain ⟨first, rest, hdigits⟩ := List.exists_cons_of_ne_nil hspells.nonempty
      have hread := readDigits_of_digits hspells.digits (hspells.value.symm ▸ hle)
      rw [hspells.value, hdigits] at hread
      rw [hsigned, hdigits]
      exact hread

theorem spells_toString (number : Nat) : Spells number (toString number) := by
  have htext : (toString number).toList = Nat.toDigits 10 number := Nat.toList_repr
  refine ⟨?_, ?_, ?_⟩
  · rw [htext]
    exact Nat.toDigits_ne_nil
  · intro char hchar
    rw [htext] at hchar
    exact Nat.isDigit_of_mem_toDigits (by decide) (by decide) hchar
  · rw [htext]
    exact Nat.ofDigitChars_ten_toDigits

end Text.Numeral

/-! ## Bytes -/

namespace Text

theorem toLower_of_not_upper {char : Char} (h : ¬(char.val ≥ 'A'.val ∧ char.val ≤ 'Z'.val)) :
    char.toLower = char := dif_neg h

/-- The case of a letter does not matter to what it counts. -/
theorem Numeral.digitValue?_toLower (char : Char) :
    digitValue? char.toLower = digitValue? char := by
  by_cases h : char.val ≥ 'A'.val ∧ char.val ≤ 'Z'.val
  · have hall : ∀ letter ∈ List.range 26, digitValue? (Char.ofNat (65 + letter)).toLower =
        digitValue? (Char.ofNat (65 + letter)) := by decide
    have hlow : 65 ≤ char.toNat := h.1
    have hhigh : char.toNat ≤ 90 := h.2
    have hletter := hall (char.toNat - 65) (List.mem_range.mpr (by omega))
    rwa [Nat.add_sub_cancel' hlow, Char.ofNat_toNat] at hletter
  · rw [toLower_of_not_upper h]

namespace Hex

theorem digit?_of_toLower_eq {char : Char} {value : Nat} (hlt : value < 16)
    (h : char.toLower = (digit value).toLower) : Numeral.digit? 16 char = some value := by
  rw [← digit?_digit hlt, Numeral.digit?, Numeral.digit?, ← Numeral.digitValue?_toLower, h,
    Numeral.digitValue?_toLower]

/-- Two digits are read as the byte they count, in letters of either case. -/
theorem decodePair_of_toLower_eq {high low : Char} {byte : UInt8}
    (hhigh : high.toLower = (digit (byte.toNat / 16)).toLower)
    (hlow : low.toLower = (digit (byte.toNat % 16)).toLower) : decodePair high low = .ok byte := by
  have hbyte : byte.toNat < 256 := byte.toNat_lt
  have hhigh := digit?_of_toLower_eq (by omega) hhigh
  have hlow := digit?_of_toLower_eq (by omega) hlow
  have hplus : high ≠ '+' := by
    rintro rfl
    cases hhigh
  have hread : Numeral.read 16 255 [high, low] = .ok byte.toNat := by
    have hvalue : byte.toNat / 16 * 16 + byte.toNat % 16 = byte.toNat := Nat.div_add_mod' _ _
    rw [Numeral.read_of_ne_plus hplus, Numeral.readDigits, hhigh]
    dsimp only
    rw [Nat.zero_mul, Nat.zero_add, if_neg (by omega), Numeral.readDigits, hlow]
    dsimp only
    rw [hvalue, if_neg (by omega)]
    rfl
  rw [decodePair, hread]
  dsimp only
  rw [UInt8.ofNat_toNat]

theorem decodePairs_of_sameLetters {bytes : List UInt8} {chars : List Char}
    (h : SameLetters chars (bytes.flatMap byteDigits)) : decodePairs chars = .ok bytes := by
  induction bytes generalizing chars with
  | nil =>
      obtain rfl : chars = [] := List.map_eq_nil_iff.mp h
      rfl
  | cons byte rest ih =>
      obtain ⟨high, others, rfl, hhigh, hothers⟩ := List.map_eq_cons_iff.mp h
      obtain ⟨low, others, rfl, hlow, hrest⟩ := List.map_eq_cons_iff.mp hothers
      rw [decodePairs, decodePair_of_toLower_eq hhigh hlow, ih hrest]
      rfl

/-- **Bytes are read from any of their spellings.** -/
theorem decode_of_spells {bytes : List UInt8} {text : String} (h : Spells bytes text) :
    decode text = .ok bytes := by
  -- there are two digits for each byte, so the characters can be paired
  have hcount : (text.toList.filter fun char => !isSeparator char).length = bytes.length * 2 := by
    have hlength := congrArg List.length h
    simpa [byteDigits, List.length_flatMap] using hlength
  rw [decode, if_pos (by rw [hcount, Nat.mul_mod_left])]
  exact decodePairs_of_sameLetters h

theorem isSeparator_digit {value : Nat} (h : value < 16) : isSeparator (digit value) = false := by
  have hall : ∀ v ∈ List.range 16, isSeparator (digit v) = false := by decide
  exact hall value (List.mem_range.mpr h)

section Filter

variable {p : Char → Bool}

theorem filter_byteDigits (hdigit : ∀ value < 16, p (digit value) = true) (byte : UInt8) :
    (byteDigits byte).filter p = byteDigits byte := by
  have hbyte : byte.toNat < 256 := byte.toNat_lt
  refine List.filter_eq_self.mpr fun char hchar => ?_
  rw [byteDigits, List.mem_cons, List.mem_singleton] at hchar
  rcases hchar with rfl | rfl
  · exact hdigit _ (by omega)
  · exact hdigit _ (by omega)

/-- Between two bytes there is nothing but a space. -/
theorem filter_toList_encode (hdigit : ∀ value < 16, p (digit value) = true)
    (hspace : p ' ' = false) (bytes : List UInt8) :
    (encode bytes).toList.filter p = bytes.flatMap byteDigits := by
  have htext : (encode bytes).toList = [' '].intercalate (bytes.map byteDigits) := by
    rw [encode, String.toList_intercalate, List.map_map]
    exact congrArg _ (List.map_congr_left fun byte _ => String.toList_ofList)
  rw [htext]
  -- by induction on the bytes: the first one stands alone, and each other behind a space
  clear htext
  induction bytes with
  | nil => rfl
  | cons byte rest ih =>
      cases rest with
      | nil =>
          rw [List.map_singleton, List.intercalate_singleton, filter_byteDigits hdigit,
            List.flatMap_singleton]
      | cons next others =>
          have hgap : [' '].filter p = [] := by simp [hspace]
          rw [List.map_cons] at ih
          rw [List.map_cons, List.map_cons, List.intercalate_cons_cons, List.filter_append,
            List.filter_append, filter_byteDigits hdigit, hgap, ih, List.append_nil,
            ← List.flatMap_cons]

end Filter

theorem spells_encode (bytes : List UInt8) : Spells bytes (encode bytes) := by
  have hdigit : ∀ value < 16, (!isSeparator (digit value)) = true := by
    intro value hvalue
    rw [isSeparator_digit hvalue, Bool.not_false]
  rw [Spells, filter_toList_encode hdigit (by decide)]
  rfl

end Hex

end Text

/-! ## Memories -/

/-- Texts are read one after the other when each can be read. -/
theorem mapM_eq_ok_iff {ε α β : Type} {f : α → Except ε β} {texts : List α} {found : List β} :
    texts.mapM f = .ok found ↔ List.Forall₂ (fun text value => f text = .ok value) texts found := by
  induction texts generalizing found with
  | nil =>
      rw [List.mapM_nil, List.forall₂_nil_left_iff]
      exact ⟨fun h => (Except.ok.inj h).symm, fun h => h ▸ rfl⟩
  | cons text rest ih =>
      rw [List.mapM_cons, List.forall₂_cons_left_iff]
      refine ⟨fun h => ?_, fun h => ?_⟩
      · cases hfirst : f text with
        | error fault =>
            rw [hfirst] at h
            cases h
        | ok value =>
            cases hrest : rest.mapM f with
            | error fault =>
                rw [hfirst, hrest] at h
                cases h
            | ok values =>
                rw [hfirst, hrest] at h
                cases h
                exact ⟨value, values, rfl, ih.mp hrest, rfl⟩
      · obtain ⟨value, values, hfirst, hrest, rfl⟩ := h
        rw [hfirst, ih.mpr hrest]
        rfl

theorem Text.toLower_of_isDigit {char : Char} (h : char.isDigit = true) : char.toLower = char := by
  have hhigh : char.val ≤ '9'.val := by
    simp only [Char.isDigit, Bool.and_eq_true, decide_eq_true_eq] at h
    exact h.2
  refine toLower_of_not_upper fun hupper => ?_
  have hlow : 'A'.val ≤ '9'.val := Nat.le_trans hupper.1 hhigh
  exact absurd hlow (by decide)

namespace Command

theorem readWidth_of_spells {width : Nat} {text : String} (h : Numeral.Spells width text)
    (hle : width ≤ wordLimit) : readWidth text = .ok width := by
  rw [readWidth, Numeral.read_of_spells h hle]

theorem isNull_of_digits {number : Nat} {text : String} (h : Numeral.Spells number text) :
    isNull text = false := by
  refine beq_eq_false_iff_ne.mpr fun hnull => ?_
  obtain ⟨first, rest, htext, hfirst, -⟩ := List.map_eq_cons_iff.mp hnull
  -- a digit is its own small letter, so the first character would have to be an n
  have hdigit : first.isDigit = true := h.digits first (htext ▸ List.mem_cons_self)
  rw [toLower_of_isDigit hdigit] at hfirst
  subst hfirst
  exact absurd hdigit (by decide)

theorem readReference_of_spells {reference : Reference} {text : String} (h : reference.Spells text)
    (hword : ∀ offset, reference = some offset → offset ≤ wordLimit) :
    readReference text = .ok reference := by
  cases reference with
  | none => exact if_pos (beq_iff_eq.mpr h)
  | some offset =>
      have hnumeral : Numeral.Spells offset text := h
      rw [readReference, isNull_of_digits hnumeral, if_neg Bool.false_ne_true,
        Numeral.read_of_spells hnumeral (hword offset rfl)]

theorem mapM_readReference_of_spells {references : List Reference} {texts : List String}
    (h : List.Forall₂ Reference.Spells references texts)
    (hword : ∀ offset, some offset ∈ references → offset ≤ wordLimit) :
    texts.mapM readReference = .ok references := by
  have hwords : ∀ reference ∈ references, ∀ offset, reference = some offset → offset ≤ wordLimit :=
    fun reference hmem offset heq => hword offset (heq ▸ hmem)
  have hboth := (List.forall₂_and_left references texts).mpr ⟨hwords, h⟩
  have hread := hboth.imp fun reference text hspells => readReference_of_spells hspells.2 hspells.1
  exact mapM_eq_ok_iff.mpr hread.flip

/-- **A memory is read from any spelling of its bytes and its references.** -/
theorem readMemory_of_spells {memory : Memory} {buffer : String} {references : List String}
    (hbuffer : Hex.Spells memory.buffer.toList buffer)
    (hreferences : List.Forall₂ Reference.Spells memory.slots.toList references)
    (hword : ∀ offset, some offset ∈ memory.slots → offset ≤ wordLimit) :
    readMemory (buffer :: references) = .ok memory := by
  have hslots := mapM_readReference_of_spells hreferences
    fun offset ho => hword offset (Array.mem_toList_iff.mp ho)
  rw [readMemory, readBuffer, Hex.decode_of_spells hbuffer, hslots]
  rfl

end Command

theorem Reference.spells_text (reference : Reference) : reference.Spells reference.text := by
  cases reference with
  | none => exact rfl
  | some offset => exact Numeral.spells_toString offset

end Compaction

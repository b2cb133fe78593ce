import Compaction.Proofs.Decoding

/-!
# What bytes are read from

Reading leaves nothing out but separators, so what a text stands for should show in its digits: in
capitals, they are those of the bytes as they are written. There is one exception. A pair of
characters is read as a numeral, in front of which a plus sign may stand, and so a plus sign and one
digit are a byte (`decodePair_eq_ok_iff`). The sign then counts as a zero.

With a zero in its place the digits agree, and a text is read just when they do and no plus sign is
the second of a pair (`decodePairs_eq_ok_iff`). Without plus signs there are only separators and
digits.
-/

namespace Compaction.Text.Hex

/-- The digit that a character counts as, in capitals. A plus sign counts as a zero. -/
def asDigit (char : Char) : Char := if char = '+' then '0' else char.toUpper

/-! ## One digit -/

variable {char high low : Char} {value other : Nat}

/-- What holds of all ASCII characters can be checked one after the other. -/
theorem forall_ascii {p : Char → Prop} (h : ∀ code ∈ List.range 128, p (Char.ofNat code))
    (hchar : char.toNat < 128) : p char := by
  have hcode := h char.toNat (List.mem_range.mpr hchar)
  rwa [Char.ofNat_toNat] at hcode

theorem lt_of_isHexDigit (h : char.isHexDigit = true) : char.toNat < 128 := by
  simp only [Char.isHexDigit, Char.isDigit, Bool.or_eq_true, Bool.and_eq_true,
    decide_eq_true_eq] at h
  rcases h with (⟨-, hlast⟩ | ⟨-, hlast⟩) | ⟨-, hlast⟩
  · exact Nat.lt_of_le_of_lt hlast (by decide)
  · exact Nat.lt_of_le_of_lt hlast (by decide)
  · exact Nat.lt_of_le_of_lt hlast (by decide)

theorem lt_sixteen_of_digit? (h : Numeral.digit? 16 char = some value) : value < 16 :=
  of_decide_eq_true (Option.filter_eq_some_iff.mp h).2

theorem lt_of_digit? (h : Numeral.digit? 16 char = some value) : char.toNat < 128 := by
  have hvalue := (Option.filter_eq_some_iff.mp h).1
  unfold Numeral.digitValue? at hvalue
  split at hvalue
  · rename_i hrange
    exact Nat.lt_of_le_of_lt hrange.2 (by decide)
  · split at hvalue
    · rename_i hrange
      exact Nat.lt_of_le_of_lt hrange.2 (by decide)
    · split at hvalue
      · rename_i hrange
        exact Nat.lt_of_le_of_lt hrange.2 (by decide)
      · cases hvalue

/-- What a digit counts is written as the digit itself, in capitals. -/
theorem map_digit_digit? (char : Char) :
    (Numeral.digit? 16 char).map digit =
      if char.isHexDigit = true then some char.toUpper else none := by
  by_cases hchar : char.toNat < 128
  · exact forall_ascii (p := fun char => (Numeral.digit? 16 char).map digit =
      if char.isHexDigit = true then some char.toUpper else none) (by decide +kernel) hchar
  · -- all digits are ASCII
    rw [if_neg fun hhex => hchar (lt_of_isHexDigit hhex)]
    cases hdigit : Numeral.digit? 16 char with
    | none => rfl
    | some value => exact absurd (lt_of_digit? hdigit) hchar

theorem digit_inj (h : value < 16) (hother : other < 16) (heq : digit value = digit other) :
    value = other := by
  have hdigit := digit?_digit h
  rw [heq, digit?_digit hother] at hdigit
  exact (Option.some.inj hdigit).symm

theorem digit?_eq_some_iff :
    Numeral.digit? 16 char = some value ↔
      value < 16 ∧ char.isHexDigit = true ∧ char.toUpper = digit value := by
  have hmap := map_digit_digit? char
  constructor
  · intro h
    rw [h, Option.map_some] at hmap
    split at hmap
    · rename_i hhex
      exact ⟨lt_sixteen_of_digit? h, hhex, (Option.some.inj hmap).symm⟩
    · cases hmap
  · rintro ⟨hlt, hhex, hupper⟩
    rw [if_pos hhex, hupper] at hmap
    obtain ⟨found, hfound, heq⟩ := Option.map_eq_some_iff.mp hmap
    rw [hfound, digit_inj (lt_sixteen_of_digit? hfound) hlt heq]

theorem ne_plus_of_isHexDigit (h : char.isHexDigit = true) : char ≠ '+' := by
  rintro rfl
  cases h

theorem asDigit_of_isHexDigit (h : char.isHexDigit = true) : asDigit char = char.toUpper :=
  if_neg (ne_plus_of_isHexDigit h)

/-! ## One pair -/

variable {byte : UInt8}

theorem byteDigits_ofNat (h : value < 16) (hother : other < 16) :
    byteDigits (UInt8.ofNat (value * 16 + other)) = [digit value, digit other] := by
  have hnat : (UInt8.ofNat (value * 16 + other)).toNat = value * 16 + other :=
    UInt8.toNat_ofNat_of_lt' (by show value * 16 + other < 256; omega)
  have hdiv : (value * 16 + other) / 16 = value := by omega
  have hmod : (value * 16 + other) % 16 = other := by omega
  rw [byteDigits, hnat, hdiv, hmod]

theorem decodePair_of_digits (hhigh : Numeral.digit? 16 high = some value)
    (hlow : Numeral.digit? 16 low = some other) :
    decodePair high low = .ok (UInt8.ofNat (value * 16 + other)) := by
  have hvalue := lt_sixteen_of_digit? hhigh
  have hother := lt_sixteen_of_digit? hlow
  have hplus : high ≠ '+' := ne_plus_of_isHexDigit (digit?_eq_some_iff.mp hhigh).2.1
  have hread : Numeral.read 16 255 [high, low] = .ok (value * 16 + other) := by
    rw [Numeral.read_of_ne_plus hplus]
    simp only [Numeral.readDigits, hhigh, hlow]
    rw [if_neg (by omega), if_neg (by omega), Nat.zero_mul, Nat.zero_add]
  rw [decodePair, hread]

theorem decodePair_plus (hlow : Numeral.digit? 16 low = some value) :
    decodePair '+' low = .ok (UInt8.ofNat (0 * 16 + value)) := by
  have hvalue := lt_sixteen_of_digit? hlow
  have hread : Numeral.read 16 255 ['+', low] = .ok (0 * 16 + value) := by
    show Numeral.readDigits 16 255 0 [low] = _
    simp only [Numeral.readDigits, hlow]
    rw [if_neg (by omega)]
  rw [decodePair, hread]

/-- What is read without a fault has digits, but for a sign in front. -/
theorem exists_digits_of_decodePair (h : decodePair high low = .ok byte) :
    ∃ other, Numeral.digit? 16 low = some other ∧
      (high = '+' ∨ ∃ value, Numeral.digit? 16 high = some value) := by
  rw [decodePair] at h
  split at h
  · rename_i number hread
    by_cases hplus : high = '+'
    · subst hplus
      have hdigits : Numeral.readDigits 16 255 0 [low] = .ok number := hread
      rw [Numeral.readDigits] at hdigits
      split at hdigits
      · cases hdigits
      · rename_i other hlow
        exact ⟨other, hlow, .inl rfl⟩
    · rw [Numeral.read_of_ne_plus hplus, Numeral.readDigits] at hread
      split at hread
      · cases hread
      · rename_i value hhigh
        split at hread
        · cases hread
        · rw [Numeral.readDigits] at hread
          split at hread
          · cases hread
          · rename_i other hlow
            exact ⟨other, hlow, .inr ⟨value, hhigh⟩⟩
  · cases h

/-- **A pair is read as the byte of its digits**, where a plus sign in front counts as a zero. -/
theorem decodePair_eq_ok_iff :
    decodePair high low = .ok byte ↔
      (high.isHexDigit = true ∨ high = '+') ∧ low.isHexDigit = true ∧
        [asDigit high, asDigit low] = byteDigits byte := by
  constructor
  · intro h
    obtain ⟨other, hlow, hhigh⟩ := exists_digits_of_decodePair h
    obtain ⟨hother, hlowhex, hlowupper⟩ := digit?_eq_some_iff.mp hlow
    rcases hhigh with rfl | ⟨value, hhigh⟩
    · rw [decodePair_plus hlow] at h
      cases h
      rw [byteDigits_ofNat (by omega) hother, asDigit_of_isHexDigit hlowhex, hlowupper]
      exact ⟨.inr rfl, hlowhex, rfl⟩
    · obtain ⟨hvalue, hhighhex, hhighupper⟩ := digit?_eq_some_iff.mp hhigh
      rw [decodePair_of_digits hhigh hlow] at h
      cases h
      rw [byteDigits_ofNat hvalue hother, asDigit_of_isHexDigit hlowhex, hlowupper,
        asDigit_of_isHexDigit hhighhex, hhighupper]
      exact ⟨.inl hhighhex, hlowhex, rfl⟩
  · rintro ⟨hhigh, hlowhex, hdigits⟩
    have hbyte : byte.toNat < 256 := byte.toNat_lt
    obtain ⟨hfirst, hrest⟩ := List.cons.inj hdigits
    have hsecond : asDigit low = digit (byte.toNat % 16) := (List.cons.inj hrest).1
    rw [asDigit_of_isHexDigit hlowhex] at hsecond
    have hlow := digit?_eq_some_iff.mpr ⟨by omega, hlowhex, hsecond⟩
    rcases hhigh with hhighhex | rfl
    · rw [asDigit_of_isHexDigit hhighhex] at hfirst
      have hhigh := digit?_eq_some_iff.mpr ⟨by omega, hhighhex, hfirst⟩
      rw [decodePair_of_digits hhigh hlow, Nat.div_add_mod', UInt8.ofNat_toNat]
    · -- a sign counts as a zero, so the byte is the one of its lower digit
      have hzero : (0 : Nat) = byte.toNat / 16 := digit_inj (by omega) (by omega) hfirst
      rw [decodePair_plus hlow, hzero, Nat.div_add_mod', UInt8.ofNat_toNat]

/-! ## All pairs -/

/-- The characters, taken two at a time, count as the digits of the bytes. -/
structure StandsFor (digits : List Char) (bytes : List UInt8) : Prop where
  hex : ∀ char ∈ digits, char.isHexDigit = true ∨ char = '+'
  /-- A plus sign is the first of a pair. -/
  signs : ∀ index, digits[2 * index + 1]? ≠ some '+'
  counts : digits.map asDigit = bytes.flatMap byteDigits

variable {digits rest : List Char} {bytes : List UInt8}

theorem standsFor_nil_left_iff : StandsFor [] bytes ↔ bytes = [] := by
  constructor
  · rintro ⟨-, -, hcounts⟩
    cases bytes with
    | nil => rfl
    | cons byte others => cases hcounts
  · rintro rfl
    exact ⟨by simp, by simp, rfl⟩

theorem not_standsFor_nil : ¬StandsFor (high :: low :: rest) [] := by
  rintro ⟨-, -, hcounts⟩
  cases hcounts

theorem standsFor_cons_iff :
    StandsFor (high :: low :: rest) (byte :: bytes) ↔
      decodePair high low = .ok byte ∧ StandsFor rest bytes := by
  rw [decodePair_eq_ok_iff]
  constructor
  · rintro ⟨hhex, hsigns, hcounts⟩
    obtain ⟨hhigh, hothers⟩ := List.forall_mem_cons.mp hhex
    obtain ⟨hlow, hrest⟩ := List.forall_mem_cons.mp hothers
    have hunsigned : low ≠ '+' := fun heq => hsigns 0 (congrArg some heq)
    obtain ⟨hfirst, htail⟩ := List.cons.inj hcounts
    obtain ⟨hsecond, hlater⟩ := List.cons.inj htail
    refine ⟨⟨hhigh, hlow.resolve_right hunsigned, ?_⟩, hrest, fun index => hsigns (index + 1),
      hlater⟩
    rw [hfirst, hsecond]
    rfl
  · rintro ⟨⟨hhigh, hlow, hpair⟩, hhex, hsigns, hcounts⟩
    refine ⟨List.forall_mem_cons.mpr ⟨hhigh, List.forall_mem_cons.mpr ⟨.inl hlow, hhex⟩⟩, ?_, ?_⟩
    · intro index
      cases index with
      | zero => exact fun heq => ne_plus_of_isHexDigit hlow (Option.some.inj heq)
      | succ index => exact hsigns index
    · rw [List.map_cons, List.map_cons, hcounts, List.flatMap_cons, ← hpair]
      rfl

/-- **Characters are read as the bytes they stand for.** -/
theorem decodePairs_eq_ok_iff (h : digits.length % 2 = 0) :
    decodePairs digits = .ok bytes ↔ StandsFor digits bytes := by
  fun_induction decodePairs digits generalizing bytes with
  | case1 high low rest byte hpair ih =>
      rw [List.length_cons, List.length_cons] at h
      have heven : rest.length % 2 = 0 := by omega
      cases bytes with
      | nil =>
          refine iff_of_false (fun hread => ?_) not_standsFor_nil
          cases hothers : decodePairs rest <;> rw [hothers] at hread <;> cases hread
      | cons first others =>
          rw [standsFor_cons_iff, hpair, ← ih heven]
          cases decodePairs rest <;> simp [Except.map]
  | case2 high low rest fault hpair =>
      refine iff_of_false (fun hread => by cases hread) fun hstands => ?_
      cases bytes with
      | nil => exact not_standsFor_nil hstands
      | cons first others =>
          rw [standsFor_cons_iff, hpair] at hstands
          cases hstands.1
  | case3 digits hshort =>
      -- what cannot be paired is empty, for there is an even number of characters
      have hnil : digits = [] := by
        cases digits with
        | nil => rfl
        | cons first others =>
            cases others with
            | nil => cases h
            | cons second later => exact absurd rfl (hshort first second later)
      subst hnil
      rw [standsFor_nil_left_iff]
      exact ⟨fun hread => (Except.ok.inj hread).symm, fun hnone => hnone ▸ rfl⟩

/-! ## Whole texts -/

variable {text : String}

theorem StandsFor.even (h : StandsFor digits bytes) : digits.length % 2 = 0 := by
  have hlength := congrArg List.length h.counts
  have hpairs : (bytes.flatMap byteDigits).length = bytes.length * 2 := by
    simp [byteDigits, List.length_flatMap]
  rw [List.length_map, hpairs] at hlength
  omega

/-- **A text is read as the bytes that what is left of it stands for.** -/
theorem decode_eq_ok_iff : decode text = .ok bytes ↔ StandsFor (kept text) bytes := by
  by_cases heven : (kept text).length % 2 = 0
  · rw [decode_of_even heven, decodePairs_eq_ok_iff heven]
  · have hodd : (kept text).length % 2 = 1 := by omega
    rw [decode_of_odd hodd]
    exact iff_of_false (fun hread => by cases hread) fun hstands => heven hstands.even

/-- The digits of bytes are what is written for them, without the spaces. -/
theorem filter_ne_space_encode (bytes : List UInt8) :
    ((encode bytes).toList.filter fun char => char != ' ') = bytes.flatMap byteDigits := by
  refine filter_toList_encode (fun value hvalue => ?_) (by decide) bytes
  have hall : ∀ value ∈ List.range 16, (digit value != ' ') = true := by decide
  exact hall value (List.mem_range.mpr hvalue)

theorem isSeparator_of_isHexDigit (h : char.isHexDigit = true) : isSeparator char = false := by
  have hascii : ∀ code ∈ List.range 128, (Char.ofNat code).isHexDigit = true →
      isSeparator (Char.ofNat code) = false := by
    decide +kernel
  exact forall_ascii (p := fun char => char.isHexDigit = true → isSeparator char = false) hascii
    (lt_of_isHexDigit h) h

theorem forall_mem_kept_iff {p : Char → Prop} :
    (∀ char ∈ kept text, p char) ↔ ∀ char ∈ text.toList, isSeparator char = true ∨ p char := by
  simp only [kept, List.mem_filter, Bool.not_eq_true']
  constructor
  · intro h char hchar
    cases hseparator : isSeparator char with
    | true => exact .inl rfl
    | false => exact .inr (h char ⟨hchar, hseparator⟩)
  · rintro h char ⟨hchar, hseparator⟩
    refine (h char hchar).resolve_left ?_
    rw [hseparator]
    exact Bool.false_ne_true

/-- Where only digits are left, the digits are what is left. -/
theorem kept_eq_filter (h : ∀ char ∈ kept text, char.isHexDigit = true) :
    kept text = text.toList.filter Char.isHexDigit := by
  refine List.filter_congr fun char hchar => ?_
  rcases forall_mem_kept_iff.mp h char hchar with hseparator | hhex
  · cases hdigit : char.isHexDigit with
    | true =>
        rw [isSeparator_of_isHexDigit hdigit] at hseparator
        cases hseparator
    | false => rw [hseparator, Bool.not_true]
  · rw [hhex, isSeparator_of_isHexDigit hhex, Bool.not_false]

theorem StandsFor.of_no_sign (h : StandsFor (kept text) bytes) (hplus : '+' ∉ text.toList) :
    (∀ char ∈ kept text, char.isHexDigit = true) ∧
      (kept text).map Char.toUpper = bytes.flatMap byteDigits := by
  have hhex : ∀ char ∈ kept text, char.isHexDigit = true := by
    intro char hchar
    refine (h.hex char hchar).resolve_right ?_
    rintro rfl
    exact hplus (List.mem_filter.mp hchar).1
  refine ⟨hhex, ?_⟩
  rw [← h.counts]
  exact List.map_congr_left fun char hchar => (asDigit_of_isHexDigit (hhex char hchar)).symm

/--
**Bytes are read from hexadecimal text, and from plus signs in front of single digits.**

Take what remains of a text without its separators. The text is read as some bytes if and only if
there is nothing but hexadecimal digits and plus signs, no plus sign is the second of a pair, and
the digits, in capitals and with a zero for each plus sign, are those that are written for the
bytes.

So a text without plus signs, if it is read at all, is made of separators and hexadecimal digits,
and the digits, in capitals and in their order, are those of what is written for the bytes.
-/
theorem decode_ok_exact (text : String) (bytes : List UInt8) :
    (decode text = .ok bytes ↔
        (∀ char ∈ text.toList, isSeparator char = true ∨ char.isHexDigit = true ∨ char = '+') ∧
        (∀ index, (kept text)[2 * index + 1]? ≠ some '+') ∧
        (kept text).map asDigit = (encode bytes).toList.filter fun char => char != ' ') ∧
      (decode text = .ok bytes → '+' ∉ text.toList →
        (∀ char ∈ text.toList, isSeparator char = true ∨ char.isHexDigit = true) ∧
        (text.toList.filter Char.isHexDigit).map Char.toUpper =
          (encode bytes).toList.filter fun char => char != ' ') := by
  rw [decode_eq_ok_iff, filter_ne_space_encode, ← forall_mem_kept_iff]
  refine ⟨⟨fun h => ⟨h.hex, h.signs, h.counts⟩, fun h => ?_⟩, fun h hplus => ?_⟩
  · obtain ⟨hhex, hsigns, hcounts⟩ := h
    exact ⟨hhex, hsigns, hcounts⟩
  · obtain ⟨hhex, hupper⟩ := h.of_no_sign hplus
    exact ⟨forall_mem_kept_iff.mp hhex, kept_eq_filter hhex ▸ hupper⟩

theorem decode_ok_exact_signed :
    decode "+_f a\u00a00" = .ok [0x0F, 0xA0] ∧
      decode "f_F 0\u2028a" = .ok [0xFF, 0x0A] ∧
      ("f_F 0\u2028a".toList.filter Char.isHexDigit).map Char.toUpper =
        (encode [0xFF, 0x0A]).toList.filter fun char => char != ' ' := by
  have hread : decode "f_F 0\u2028a" = .ok [0xFF, 0x0A] := by decide
  have hkept : kept "+_f a\u00a00" = ['+', 'f', 'a', '0'] := by decide
  have hhex : ∀ char ∈ kept "+_f a\u00a00", char.isHexDigit = true ∨ char = '+' := by
    intro char hchar
    rw [hkept] at hchar
    simp only [List.mem_cons, List.not_mem_nil, or_false] at hchar
    rcases hchar with rfl | rfl | rfl | rfl <;> decide
  refine ⟨(decode_ok_exact _ _).1.mpr ⟨forall_mem_kept_iff.mp hhex, fun index => ?_, by decide⟩,
    hread, ((decode_ok_exact _ _).2 hread (by decide)).2⟩
  rw [hkept]
  match index with
  | 0 => decide
  | 1 => decide
  | index + 2 =>
      rw [List.getElem?_eq_none (by simp; omega)]
      simp

/-- A plus sign is neither a separator nor a digit, and yet it is read. -/
theorem decode_plus_sign :
    ¬∀ (text : String) (bytes : List UInt8), decode text = .ok bytes →
      ∀ char ∈ text.toList, isSeparator char = true ∨ char.isHexDigit = true := by
  intro hall
  have hread : decode "+f" = .ok [0x0F] := by decide
  have hplus := hall "+f" [0x0F] hread '+' (by decide)
  exact absurd hplus (by decide)

end Compaction.Text.Hex

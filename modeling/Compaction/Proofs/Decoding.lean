import Compaction.Proofs.Spelling

/-!
# Which texts are bytes

A text is read as bytes in three steps: separators are left out, the characters that remain are
counted, and they are taken two at a time. So reading can fail in two ways, and which one it is can
be told from the remaining characters: there is an odd number of them, or some pair is not the
numeral of a byte (`Text.Hex.RejectsAt`). Pairs are read from left to right, and the first of those
that are turned down is the one that is reported.

Bytes are read back from every spelling, and from what is written for them in particular. So no two
sequences of bytes are written alike.
-/

namespace Compaction.Text.Hex

/-! ## One pair -/

/-- The characters at twice the index and behind it are not the numeral of a byte. -/
def RejectsAt (digits : List Char) (index : Nat) (pair : String) (cause : NumeralFault) : Prop :=
  ∃ high low, digits[2 * index]? = some high ∧ digits[2 * index + 1]? = some low ∧
    pair = String.ofList [high, low] ∧ Numeral.read 16 255 [high, low] = .error cause

variable {digits rest : List Char} {high low : Char} {index : Nat} {pair : String}
  {cause : NumeralFault} {fault : HexFault}

theorem rejectsAt_zero_iff :
    RejectsAt (high :: low :: rest) 0 pair cause ↔
      decodePair high low = .error (.badPair pair cause) := by
  rw [decodePair]
  refine ⟨fun h => ?_, fun h => ?_⟩
  · obtain ⟨first, second, hfirst, hsecond, rfl, hread⟩ := h
    obtain rfl : high = first := Option.some.inj hfirst
    obtain rfl : low = second := Option.some.inj hsecond
    rw [hread]
  · cases hread : Numeral.read 16 255 [high, low] with
    | ok value =>
        rw [hread] at h
        cases h
    | error why =>
        rw [hread] at h
        cases h
        exact ⟨high, low, rfl, rfl, rfl, hread⟩

/-- Behind the first pair the others are counted from zero again. -/
theorem rejectsAt_succ_iff :
    RejectsAt (high :: low :: rest) (index + 1) pair cause ↔ RejectsAt rest index pair cause :=
  Iff.rfl

theorem not_rejectsAt_of_length_le_one (h : digits.length ≤ 1) :
    ¬RejectsAt digits index pair cause := by
  rintro ⟨high, low, -, hlow, -⟩
  have hlt := (List.getElem?_eq_some_iff.mp hlow).1
  omega

theorem exists_of_decodePair_eq_error (h : decodePair high low = .error fault) :
    ∃ pair cause, fault = .badPair pair cause := by
  rw [decodePair] at h
  split at h
  · cases h
  · cases h
    exact ⟨_, _, rfl⟩

/-! ## All pairs -/

/-- A pair is turned down, and no pair in front of it. -/
def FirstRejected (digits : List Char) (pair : String) (cause : NumeralFault) : Prop :=
  ∃ index, RejectsAt digits index pair cause ∧
    ∀ earlier < index, ∀ other why, ¬RejectsAt digits earlier other why

/-- A pair that is turned down hides those behind it. -/
theorem firstRejected_cons_of_error {first : String} {why : NumeralFault}
    (h : decodePair high low = .error (.badPair first why)) :
    FirstRejected (high :: low :: rest) pair cause ↔ first = pair ∧ why = cause := by
  refine ⟨fun hfirst => ?_, fun heq => ?_⟩
  · obtain ⟨index, hbad, hbefore⟩ := hfirst
    cases index with
    | zero =>
        rw [rejectsAt_zero_iff, h] at hbad
        cases hbad
        exact ⟨rfl, rfl⟩
    | succ index => exact absurd (rejectsAt_zero_iff.mpr h) (hbefore 0 (Nat.succ_pos _) _ _)
  · obtain ⟨rfl, rfl⟩ := heq
    exact ⟨0, rejectsAt_zero_iff.mpr h, fun earlier hlt => absurd hlt (Nat.not_lt_zero _)⟩

/-- A pair that is read leaves the fault to those behind it. -/
theorem firstRejected_cons_of_ok {byte : UInt8} (h : decodePair high low = .ok byte) :
    FirstRejected (high :: low :: rest) pair cause ↔ FirstRejected rest pair cause := by
  have hfront : ∀ other why, ¬RejectsAt (high :: low :: rest) 0 other why := by
    intro other why hbad
    rw [rejectsAt_zero_iff, h] at hbad
    cases hbad
  refine ⟨fun hfirst => ?_, fun hfirst => ?_⟩
  · obtain ⟨index, hbad, hbefore⟩ := hfirst
    cases index with
    | zero => exact absurd hbad (hfront _ _)
    | succ index =>
        refine ⟨index, rejectsAt_succ_iff.mp hbad, fun earlier hlt other why hearlier => ?_⟩
        exact hbefore (earlier + 1) (Nat.succ_lt_succ hlt) other why
          (rejectsAt_succ_iff.mpr hearlier)
  · obtain ⟨index, hbad, hbefore⟩ := hfirst
    refine ⟨index + 1, rejectsAt_succ_iff.mpr hbad, fun earlier hlt other why hearlier => ?_⟩
    cases earlier with
    | zero => exact hfront other why hearlier
    | succ earlier =>
        exact hbefore earlier (Nat.lt_of_succ_lt_succ hlt) other why
          (rejectsAt_succ_iff.mp hearlier)

/-- **The fault of some characters is that of the first pair that is turned down.** -/
theorem decodePairs_eq_error_iff :
    decodePairs digits = .error fault ↔
      ∃ pair cause, fault = .badPair pair cause ∧ FirstRejected digits pair cause := by
  fun_induction decodePairs digits with
  | case1 high low rest byte hpair ih =>
      simp only [firstRejected_cons_of_ok hpair, ← ih]
      cases decodePairs rest <;> simp [Except.map]
  | case2 high low rest first hpair =>
      obtain ⟨pair, cause, rfl⟩ := exists_of_decodePair_eq_error hpair
      simp only [firstRejected_cons_of_error hpair]
      refine ⟨fun h => ⟨pair, cause, (Except.error.inj h).symm, rfl, rfl⟩, fun h => ?_⟩
      obtain ⟨other, why, rfl, rfl, rfl⟩ := h
      rfl
  | case3 digits hshort =>
      have hlength : digits.length ≤ 1 := by
        match digits, hshort with
        | [], _ => exact Nat.zero_le _
        | [_], _ => exact Nat.le_refl _
        | high :: low :: rest, hshort => exact absurd rfl (hshort high low rest)
      refine ⟨fun h => ?_, fun h => ?_⟩
      · cases h
      · obtain ⟨pair, cause, -, index, hbad, -⟩ := h
        exact absurd hbad (not_rejectsAt_of_length_le_one hlength)

/-- Where some pair is turned down there is a first one. -/
theorem exists_firstRejected (h : RejectsAt digits index pair cause) :
    ∃ first why, FirstRejected digits first why := by
  induction index using Nat.strongRecOn generalizing pair cause with
  | ind index ih =>
      by_cases hearlier : ∃ earlier < index, ∃ other why, RejectsAt digits earlier other why
      · obtain ⟨earlier, hlt, other, why, hbad⟩ := hearlier
        exact ih earlier hlt hbad
      · refine ⟨pair, cause, index, h, fun earlier hlt other why hbad => ?_⟩
        exact hearlier ⟨earlier, hlt, other, why, hbad⟩

/-! ## Whole texts -/

/-- The characters of a text that are not only there to set digits apart. -/
def kept (text : String) : List Char := text.toList.filter fun char => !isSeparator char

variable {text : String}

theorem decode_of_odd (h : (kept text).length % 2 = 1) :
    decode text = .error (.oddCount (kept text).length) := by
  have hodd : ¬(kept text).length % 2 = 0 := by omega
  rw [decode]
  exact if_neg hodd

theorem decode_of_even (h : (kept text).length % 2 = 0) :
    decode text = decodePairs (kept text) := by
  rw [decode]
  exact if_pos h

theorem decode_eq_badPair_iff (h : (kept text).length % 2 = 0) :
    decode text = .error (.badPair pair cause) ↔ FirstRejected (kept text) pair cause := by
  rw [decode_of_even h, decodePairs_eq_error_iff]
  refine ⟨fun hfault => ?_, fun hfirst => ⟨pair, cause, rfl, hfirst⟩⟩
  obtain ⟨other, why, heq, hfirst⟩ := hfault
  cases heq
  exact hfirst

theorem exists_decode_eq_error_iff (h : (kept text).length % 2 = 0) :
    (∃ fault, decode text = .error fault) ↔
      ∃ index pair cause, RejectsAt (kept text) index pair cause := by
  rw [decode_of_even h]
  refine ⟨fun hfault => ?_, fun hbad => ?_⟩
  · obtain ⟨fault, hfault⟩ := hfault
    obtain ⟨pair, cause, -, index, hbad, -⟩ := decodePairs_eq_error_iff.mp hfault
    exact ⟨index, pair, cause, hbad⟩
  · obtain ⟨index, pair, cause, hbad⟩ := hbad
    obtain ⟨first, why, hfirst⟩ := exists_firstRejected hbad
    exact ⟨_, decodePairs_eq_error_iff.mpr ⟨first, why, rfl, hfirst⟩⟩

theorem decode_encode (bytes : List UInt8) : decode (encode bytes) = .ok bytes :=
  decode_of_spells (spells_encode bytes)

/-- **No two sequences of bytes are written alike.** -/
theorem encode_injective : Function.Injective encode := by
  intro first second h
  have hboth := (decode_encode first).symm.trans ((congrArg decode h).trans (decode_encode second))
  exact Except.ok.inj hboth

/--
**Reading bytes undoes writing them, and fails in two ways only.**

Bytes are read from each of their spellings, in digits of either case and with separators anywhere,
and so from the text that is written for them. No other bytes have that text.

Take any text and what remains of it without the separators. An odd number of characters is what is
reported when there is one. With an even number reading fails if and only if some pair of
characters, counted from the front, is not the numeral of a byte, and then the first of these pairs
is reported.
-/
theorem decode_exact :
    (∀ bytes text, Spells bytes text → decode text = .ok bytes) ∧
      (∀ bytes, decode (encode bytes) = .ok bytes) ∧
      Function.Injective encode ∧
      ∀ (text : String) (digits : List Char),
        text.toList.filter (fun char => !isSeparator char) = digits →
        (digits.length % 2 = 1 → decode text = .error (.oddCount digits.length)) ∧
        (digits.length % 2 = 0 →
          ((∃ fault, decode text = .error fault) ↔
            ∃ index pair cause, RejectsAt digits index pair cause) ∧
          ∀ pair cause, decode text = .error (.badPair pair cause) ↔
            FirstRejected digits pair cause) := by
  refine ⟨fun bytes text => decode_of_spells, decode_encode, encode_injective,
    fun text digits hkept => ?_⟩
  subst hkept
  refine ⟨fun hodd => decode_of_odd hodd, fun heven => ⟨?_, fun pair cause => ?_⟩⟩
  · exact exists_decode_eq_error_iff heven
  · exact decode_eq_badPair_iff heven

theorem decode_exact_mixed :
    decode "f_F \u2028 0\u00a0A" = .ok [0xFF, 0x0A] ∧ decode "F_F F" = .error (.oddCount 3) ∧
      decode "+f xF Gé" = .error (.badPair "xF" .invalidDigit) := by
  obtain ⟨hspelled, -, -, hfaults⟩ := decode_exact
  obtain ⟨hodd, -⟩ := hfaults "F_F F" ['F', 'F', 'F'] (by decide)
  obtain ⟨-, heven⟩ := hfaults "+f xF Gé" ['+', 'f', 'x', 'F', 'G', 'é'] (by decide)
  refine ⟨hspelled [0xFF, 0x0A] _ (by decide), hodd (by decide),
    ((heven (by decide)).2 "xF" .invalidDigit).mpr ⟨1, ?_, fun earlier hlt other why hbad => ?_⟩⟩
  · exact ⟨'x', 'F', rfl, rfl, by decide, by decide⟩
  · -- a sign may stand in front of the digits of a numeral, so the first pair is one
    obtain rfl : earlier = 0 := Nat.lt_one_iff.mp hlt
    have hpair : decodePair '+' 'f' = .ok 15 := by decide
    rw [rejectsAt_zero_iff, hpair] at hbad
    cases hbad

end Compaction.Text.Hex

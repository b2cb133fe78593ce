import Compaction.Proofs.Spelling
import Compaction.Proofs.Summary

/-!
# Times are told apart by their text

A duration is written as a whole number of units, the decimal fraction of one more unit and the
symbol of the unit. Nothing is rounded, so the text should tell the duration; that it does is shown
part by part. Digits and the point end where the symbol begins, so two equal texts have equal
symbols, and the symbol tells the unit. The whole number ends in front of the point. What is left
are the fractions, whose zeros at the end have been cut: they are found by long division, which is
exact after as many places as the unit has zeros, so at every place the digit and the remainder tell
what was divided (`Duration.fractionDigits_inj`).

A lap is the text of its time and the number of the lap, set apart by a character that is in
neither.
-/

namespace Compaction

open Text

/-! ## Texts in two parts -/

section Parts

variable {α : Type} {p : α → Bool} {front back first second rest other : List α}

theorem takeWhile_append_eq_left (hfront : ∀ x ∈ front, p x = true)
    (hback : ∀ x ∈ back.head?, p x = false) : (front ++ back).takeWhile p = front := by
  rw [List.takeWhile_append_of_pos hfront]
  cases back with
  | nil => simp
  | cons x tail =>
      have hx : p x = false := hback x rfl
      simp [hx]

/-- The first part ends with the first element that does not belong there. -/
theorem append_inj_of_head (hfirst : ∀ x ∈ first, p x = true) (hsecond : ∀ x ∈ second, p x = true)
    (hrest : ∀ x ∈ rest.head?, p x = false) (hother : ∀ x ∈ other.head?, p x = false)
    (h : first ++ rest = second ++ other) : first = second ∧ rest = other := by
  have hfront : first = second := by
    rw [← takeWhile_append_eq_left hfirst hrest, h, takeWhile_append_eq_left hsecond hother]
  subst hfront
  exact ⟨rfl, List.append_cancel_left h⟩

end Parts

/-- A text spells one number. -/
theorem Text.Numeral.eq_of_toList_toString_eq {first second : Nat}
    (h : (toString first).toList = (toString second).toList) : first = second := by
  have hspells := spells_toString second
  rw [← String.toList_inj.mp h] at hspells
  rw [← (spells_toString first).value, hspells.value]

namespace Duration

/-! ## Fractions -/

section Fraction

variable {unit places rest first second : Nat}

theorem digit_lt_ten (h : rest < unit) : rest * 10 / unit < 10 := by
  rw [Nat.div_lt_iff_lt_mul (by omega)]
  omega

theorem isDigit_of_mem_fractionDigits (h : rest < unit) :
    ∀ char ∈ fractionDigits unit places rest, char.isDigit = true := by
  induction places generalizing rest with
  | zero => simp [fractionDigits]
  | succ places ih =>
      cases rest with
      | zero => simp [fractionDigits]
      | succ rest =>
          intro char hchar
          rw [fractionDigits] at hchar
          · rcases List.mem_cons.mp hchar with rfl | hlater
            · simpa using digit_lt_ten h
            · exact ih (Nat.mod_lt _ (by omega)) char hlater
          · simp

theorem fractionDigits_succ (hpos : rest ≠ 0) :
    fractionDigits unit (places + 1) rest =
      Nat.digitChar (rest * 10 / unit) :: fractionDigits unit places (rest * 10 % unit) := by
  cases rest with
  | zero => exact absurd rfl hpos
  | succ rest => rfl

theorem digitChar_inj (hfirst : first < 10) (hsecond : second < 10)
    (h : Nat.digitChar first = Nat.digitChar second) : first = second := by
  have hcode := congrArg Char.toNat h
  rw [Nat.toNat_digitChar_of_lt_ten hfirst, Nat.toNat_digitChar_of_lt_ten hsecond] at hcode
  omega

/-- What is left over after one more place is exact in one place less. -/
theorem dvd_mod_mul_pow (h : unit ∣ rest * 10 ^ (places + 1)) :
    unit ∣ rest * 10 % unit * 10 ^ places := by
  have hmul : rest * 10 * 10 ^ places = rest * 10 ^ (places + 1) := by
    rw [pow_succ', Nat.mul_assoc]
  rw [← hmul, ← Nat.div_add_mod (rest * 10) unit, Nat.add_mul, Nat.mul_assoc] at h
  exact (Nat.dvd_add_right (Nat.dvd_mul_right unit _)).mp h

/-- **Fractions that are exact in so many places are told apart by their digits.** -/
theorem fractionDigits_inj (hfirst : first < unit) (hsecond : second < unit)
    (hexact : unit ∣ first * 10 ^ places) (hother : unit ∣ second * 10 ^ places)
    (h : fractionDigits unit places first = fractionDigits unit places second) :
    first = second := by
  -- by induction on the places that are left, each of which gives one digit
  induction places generalizing first second with
  | zero =>
      rw [pow_zero, Nat.mul_one] at hexact hother
      rw [Nat.eq_zero_of_dvd_of_lt hexact hfirst, Nat.eq_zero_of_dvd_of_lt hother hsecond]
  | succ places ih =>
      rcases Nat.eq_zero_or_pos first with hzero | hpos
      · rcases Nat.eq_zero_or_pos second with hnone | hsome
        · rw [hzero, hnone]
        · rw [hzero, fractionDigits_succ (Nat.ne_of_gt hsome)] at h
          cases h
      · rcases Nat.eq_zero_or_pos second with hnone | hsome
        · rw [hnone, fractionDigits_succ (Nat.ne_of_gt hpos)] at h
          cases h
        · rw [fractionDigits_succ (Nat.ne_of_gt hpos),
            fractionDigits_succ (Nat.ne_of_gt hsome)] at h
          obtain ⟨hdigit, hlater⟩ := List.cons.inj h
          have hquotient : first * 10 / unit = second * 10 / unit :=
            digitChar_inj (digit_lt_ten hfirst) (digit_lt_ten hsecond) hdigit
          have hremainder : first * 10 % unit = second * 10 % unit :=
            ih (Nat.mod_lt _ (by omega)) (Nat.mod_lt _ (by omega)) (dvd_mod_mul_pow hexact)
              (dvd_mod_mul_pow hother) hlater
          have hten : first * 10 = second * 10 := by
            rw [← Nat.div_add_mod (first * 10) unit, hquotient, hremainder, Nat.div_add_mod]
          omega

end Fraction

/-! ## Units -/

/-- The units that durations are written in. -/
def scales : List Scale :=
  [⟨1000000000, 9, "s"⟩, ⟨1000000, 6, "ms"⟩, ⟨1000, 3, "µs"⟩, ⟨1, 0, "ns"⟩]

variable {duration first second : Duration} {char : Char}

theorem scale_mem_scales (duration : Duration) : duration.scale ∈ scales := by
  unfold scale scales
  split
  · simp
  · split
    · simp
    · split <;> simp

theorem unit_scale (duration : Duration) :
    duration.scale.unit = 10 ^ duration.scale.places := by
  have hall : ∀ scale ∈ scales, scale.unit = 10 ^ scale.places := by
    simp [scales]
  exact hall _ duration.scale_mem_scales

theorem unit_scale_pos (duration : Duration) : 0 < duration.scale.unit := by
  rw [unit_scale]
  exact Nat.pow_pos (by omega)

theorem mem_symbol_scale (h : char ∈ duration.scale.symbol.toList) :
    char ∈ ['s', 'm', 'µ', 'n'] := by
  have hall : ∀ scale ∈ scales, ∀ letter ∈ scale.symbol.toList,
      letter ∈ ['s', 'm', 'µ', 'n'] := by
    simp [scales]
  exact hall _ duration.scale_mem_scales char h

/-- The symbol tells the unit. -/
theorem scale_eq_of_symbol_eq (h : first.scale.symbol = second.scale.symbol) :
    first.scale = second.scale := by
  have hall : ∀ scale ∈ scales, ∀ other ∈ scales, scale.symbol = other.symbol → scale = other := by
    decide
  exact hall _ first.scale_mem_scales _ second.scale_mem_scales h

/-! ## Whole texts -/

/-- The digits and the point in front of the symbol. -/
def number (duration : Duration) : List Char :=
  (toString (duration.nanos / duration.scale.unit)).toList ++
    (fractionText duration.scale (duration.nanos % duration.scale.unit)).toList

theorem toList_text (duration : Duration) :
    duration.text.toList = duration.number ++ duration.scale.symbol.toList := by
  simp [text, number]

theorem toList_fractionText (scale : Scale) (rest : Nat) :
    (fractionText scale rest).toList =
      if rest = 0 then [] else '.' :: fractionDigits scale.unit scale.places rest := by
  unfold fractionText
  split
  · rfl
  · simp

theorem mem_number (h : char ∈ duration.number) : char.isDigit = true ∨ char = '.' := by
  rcases List.mem_append.mp h with hwhole | hfraction
  · exact .inl ((Numeral.spells_toString _).digits char hwhole)
  · rw [toList_fractionText] at hfraction
    split at hfraction
    · cases hfraction
    · rcases List.mem_cons.mp hfraction with hpoint | hdigit
      · exact .inr hpoint
      · have hrest := Nat.mod_lt duration.nanos duration.unit_scale_pos
        exact .inl (isDigit_of_mem_fractionDigits hrest char hdigit)

/-- A duration is written in digits, points and the letters of the symbols. -/
theorem mem_text (h : char ∈ duration.text.toList) :
    char.isDigit = true ∨ char ∈ ['.', 's', 'm', 'µ', 'n'] := by
  rw [toList_text] at h
  rcases List.mem_append.mp h with hnumber | hsymbol
  · rcases mem_number hnumber with hdigit | rfl
    · exact .inl hdigit
    · simp
  · exact .inr (List.mem_cons_of_mem _ (mem_symbol_scale hsymbol))

/-- Behind the number comes a letter. -/
theorem number_inj_of_text_eq (h : first.text = second.text) :
    first.number = second.number ∧ first.scale.symbol = second.scale.symbol := by
  have hchars := congrArg String.toList h
  rw [toList_text, toList_text] at hchars
  have hnumber : ∀ duration : Duration, ∀ x ∈ duration.number,
      (x.isDigit || x == '.') = true := by
    intro duration x hx
    simpa using mem_number hx
  have hsymbol : ∀ duration : Duration, ∀ x ∈ duration.scale.symbol.toList.head?,
      (x.isDigit || x == '.') = false := by
    intro duration x hx
    have hletter := mem_symbol_scale (List.mem_of_head? hx)
    simp only [List.mem_cons, List.not_mem_nil, or_false] at hletter
    rcases hletter with rfl | rfl | rfl | rfl <;> rfl
  obtain ⟨hfront, hback⟩ := append_inj_of_head (hnumber first) (hnumber second) (hsymbol first)
    (hsymbol second) hchars
  exact ⟨hfront, String.toList_inj.mp hback⟩

/-- In front of the point is the whole number of units. -/
theorem whole_inj_of_number_eq (h : first.number = second.number) :
    first.nanos / first.scale.unit = second.nanos / second.scale.unit ∧
      (fractionText first.scale (first.nanos % first.scale.unit)).toList =
        (fractionText second.scale (second.nanos % second.scale.unit)).toList := by
  have hpoint : ∀ duration : Duration,
      ∀ x ∈ (fractionText duration.scale (duration.nanos % duration.scale.unit)).toList.head?,
        x.isDigit = false := by
    intro duration x hx
    rw [toList_fractionText] at hx
    split at hx
    · cases hx
    · cases hx
      rfl
  obtain ⟨hwhole, hfraction⟩ := append_inj_of_head (Numeral.spells_toString _).digits
    (Numeral.spells_toString _).digits (hpoint first) (hpoint second) h
  exact ⟨Numeral.eq_of_toList_toString_eq hwhole, hfraction⟩

theorem rest_inj_of_fractionText_eq {scale : Scale} {rest other : Nat}
    (hexact : scale.unit = 10 ^ scale.places) (hrest : rest < scale.unit)
    (hother : other < scale.unit)
    (h : (fractionText scale rest).toList = (fractionText scale other).toList) : rest = other := by
  rw [toList_fractionText, toList_fractionText] at h
  split at h
  · rename_i hzero
    split at h
    · rename_i hnone
      rw [hzero, hnone]
    · cases h
  · split at h
    · cases h
    · have hdvd : ∀ part : Nat, scale.unit ∣ part * 10 ^ scale.places :=
        fun part => hexact ▸ Nat.dvd_mul_left _ _
      exact fractionDigits_inj hrest hother (hdvd rest) (hdvd other) (List.cons.inj h).2

/-- **No two durations are written alike.** -/
theorem text_inj : first.text = second.text ↔ first = second := by
  refine ⟨fun h => ?_, fun h => h ▸ rfl⟩
  obtain ⟨hnumber, hsymbol⟩ := number_inj_of_text_eq h
  obtain ⟨hwhole, hfraction⟩ := whole_inj_of_number_eq hnumber
  have hscale : first.scale = second.scale := scale_eq_of_symbol_eq hsymbol
  have hpos := second.unit_scale_pos
  rw [hscale] at hwhole hfraction
  have hrest := rest_inj_of_fractionText_eq second.unit_scale (Nat.mod_lt _ hpos)
    (Nat.mod_lt _ hpos) hfraction
  refine eq_of_nanos_eq ?_
  rw [← Nat.div_add_mod first.nanos second.scale.unit, hwhole, hrest, Nat.div_add_mod]

end Duration

/-! ## Laps -/

namespace Lap

variable {lap first second : Lap} {char : Char}

theorem toList_text (lap : Lap) :
    lap.text.toList = lap.elapsed.text.toList ++ '@' :: (toString lap.index).toList := by
  show (lap.elapsed.text ++ "@" ++ toString lap.index).toList = _
  rw [String.toList_append, String.toList_append, List.append_assoc]
  rfl

/-- A lap is written in the characters of durations, with a sign of its own between two parts. -/
theorem mem_text (h : char ∈ lap.text.toList) :
    char.isDigit = true ∨ char ∈ ['@', '.', 's', 'm', 'µ', 'n'] := by
  rw [toList_text] at h
  rcases List.mem_append.mp h with htime | hindex
  · rcases Duration.mem_text htime with hdigit | hother
    · exact .inl hdigit
    · exact .inr (List.mem_cons_of_mem _ hother)
  · rcases List.mem_cons.mp hindex with rfl | hdigit
    · simp
    · exact .inl ((Numeral.spells_toString _).digits char hdigit)

/-- **No two laps are written alike.** -/
theorem text_inj :
    first.text = second.text ↔ first.elapsed = second.elapsed ∧ first.index = second.index := by
  refine ⟨fun h => ?_, fun h => ?_⟩
  · have hchars := congrArg String.toList h
    rw [toList_text, toList_text] at hchars
    have htime : '@' ∉ first.elapsed.text.toList := by
      intro hmem
      rcases Duration.mem_text hmem with hdigit | hother
      · cases hdigit
      · simp at hother
    have hindex : '@' ∉ (toString first.index).toList := by
      intro hmem
      cases (Numeral.spells_toString _).digits '@' hmem
    obtain ⟨helapsed, -, hnumber⟩ :=
      (List.append_cons_inj_of_notMem htime hindex).mp hchars
    exact ⟨Duration.text_inj.mp (String.toList_inj.mp helapsed),
      Numeral.eq_of_toList_toString_eq hnumber⟩
  · obtain ⟨helapsed, hindex⟩ := h
    rw [text, text, helapsed, hindex]

end Lap

/--
**The text of a time loses nothing.**

Two laps have the same text only if they took equally long, to the nanosecond, and have the same
number. And two series whose averages are written alike have the same average. The times are any
durations, the longest included, and the numbers any numbers.
-/
theorem text_tells_time :
    (∀ first second : Lap, first.text = second.text ↔
      first.elapsed.nanos = second.elapsed.nanos ∧ first.index = second.index) ∧
      ∀ first second : Series, first.average.text = second.average.text ↔
        first.average.nanos = second.average.nanos := by
  have hnanos : ∀ first second : Duration, first = second ↔ first.nanos = second.nanos :=
    fun first second => ⟨fun h => h ▸ rfl, Duration.eq_of_nanos_eq⟩
  refine ⟨fun first second => ?_, fun first second => ?_⟩
  · rw [Lap.text_inj, hnanos]
  · rw [Duration.text_inj, hnanos]

end Compaction

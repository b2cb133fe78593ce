import Compaction.Proofs.Spelling

/-!
# Which argument decides

Arguments can be wrong in several ways at once, and help can be asked for anywhere among them.
`Token.Scans` says what each argument is there for and `Command.Means` what the tokens come to: each
constructor rules out the ones before it, so there is one result for every list of arguments.

Options are settled before any operand is read. Up to the first option that cannot be read, or the
first one for help, operands are only collected (`Command.exists_widths_of_readable`); so where
there is neither, it makes no difference how options and operands are interleaved.
-/

namespace Compaction

open Text

/-! ## What arguments are there for -/

namespace Token

/--
The tokens of the arguments from left to right. The option for the width takes the argument behind
it as its value, be it an option or not.
-/
inductive Scans : List String → List Token → Prop where
  | nil : Scans [] []
  | width {flag value : String} {rest : List String} {tokens : List Token}
      (isOption : flag = "-b" ∨ flag = "--block-size") (behind : Scans rest tokens) :
      Scans (flag :: value :: rest) (.width (some value) :: tokens)
  | widthAtEnd {flag : String} (isOption : flag = "-b" ∨ flag = "--block-size") :
      Scans [flag] [.width none]
  | help {flag : String} {rest : List String} {tokens : List Token}
      (isHelp : flag = "-h" ∨ flag = "--help") (behind : Scans rest tokens) :
      Scans (flag :: rest) (.help :: tokens)
  | operand {text : String} {rest : List String} {tokens : List Token}
      (isNone : text ∉ ["-b", "--block-size", "-h", "--help"]) (behind : Scans rest tokens) :
      Scans (text :: rest) (.operand text :: tokens)

theorem scans_ofArguments (arguments : List String) : Scans arguments (ofArguments arguments) := by
  fun_induction ofArguments arguments with
  | case1 => exact .nil
  | case2 flag hoption => exact .widthAtEnd hoption
  | case3 flag hoption value rest ih => exact .width hoption ih
  | case4 flag rest _ hhelp ih => exact .help hhelp ih
  | case5 text rest hoption hhelp ih =>
      refine .operand ?_ ih
      simp only [List.mem_cons, List.not_mem_nil, or_false]
      rintro (hb | hblock | hh | hlong)
      · exact hoption (.inl hb)
      · exact hoption (.inr hblock)
      · exact hhelp (.inl hh)
      · exact hhelp (.inr hlong)

/-- **Arguments are scanned in one way.** -/
theorem Scans.eq_ofArguments {arguments : List String} {tokens : List Token}
    (h : Scans arguments tokens) : tokens = ofArguments arguments := by
  induction h with
  | nil => rfl
  | width hoption _ ih => rw [ofArguments_width hoption, ih]
  | widthAtEnd hoption => rw [ofArguments, if_pos hoption]
  | help hhelp _ ih => rw [ofArguments_help hhelp, ih]
  | operand hnone _ ih => rw [ofArguments_operand hnone, ih]

theorem scans_iff {arguments : List String} {tokens : List Token} :
    Scans arguments tokens ↔ tokens = ofArguments arguments :=
  ⟨Scans.eq_ofArguments, fun h => h ▸ scans_ofArguments arguments⟩

/-- The value of an option for the width. -/
def value? : Token → Option String
  | .width value => value
  | _ => none

/-- Reading goes on behind the token: it is an operand, or its width can be read. -/
inductive Readable : Token → Prop where
  | operand (text : String) : Readable (.operand text)
  | width {text : String} {width : Nat} (reads : Command.readWidth text = .ok width) :
      Readable (.width (some text))

/-- The token is an option for the width that has no value, or one that cannot be read. -/
inductive Rejected : Token → CommandFault → Prop where
  | missing : Rejected (.width none) .missingWidth
  | unreadable {text : String} {fault : CommandFault}
      (reads : Command.readWidth text = .error fault) : Rejected (.width (some text)) fault

theorem readable_or_rejected_or_help (token : Token) :
    token.Readable ∨ (∃ fault, token.Rejected fault) ∨ token = .help := by
  cases token with
  | help => exact .inr (.inr rfl)
  | operand text => exact .inl (.operand text)
  | width value =>
      cases value with
      | none => exact .inr (.inl ⟨_, .missing⟩)
      | some text =>
          cases hread : Command.readWidth text with
          | ok width => exact .inl (.width hread)
          | error fault => exact .inr (.inl ⟨fault, .unreadable hread⟩)

/-- Either reading goes on to the end, or there is a first token at which it does not. -/
theorem forall_readable_or_exists_first (tokens : List Token) :
    (∀ token ∈ tokens, token.Readable) ∨
      ∃ before token after, tokens = before ++ token :: after ∧
        (∀ earlier ∈ before, earlier.Readable) ∧
        ((∃ fault, token.Rejected fault) ∨ token = .help) := by
  induction tokens with
  | nil => exact .inl fun token ht => absurd ht List.not_mem_nil
  | cons token rest ih =>
      rcases token.readable_or_rejected_or_help with hread | hstop
      · rcases ih with hall | ⟨before, stop, after, rfl, hbefore, hstop⟩
        · exact .inl (List.forall_mem_cons.mpr ⟨hread, hall⟩)
        · exact .inr ⟨token :: before, stop, after, rfl,
            List.forall_mem_cons.mpr ⟨hread, hbefore⟩, hstop⟩
      · exact .inr ⟨[], token, rest, rfl, fun _ ht => absurd ht List.not_mem_nil, hstop⟩

end Token

/-! ## Reading one text after the other -/

/-- **The first text that cannot be read is the one that is reported.** -/
theorem mapM_eq_error_iff {ε α β : Type} {f : α → Except ε β} {texts : List α} {fault : ε} :
    texts.mapM f = .error fault ↔
      ∃ before text after, texts = before ++ text :: after ∧
        (∀ earlier ∈ before, ∃ value, f earlier = .ok value) ∧ f text = .error fault := by
  refine ⟨fun h => ?_, fun h => ?_⟩
  · induction texts with
    | nil => cases h
    | cons text rest ih =>
        rw [List.mapM_cons] at h
        cases hfirst : f text with
        | error first =>
            rw [hfirst] at h
            cases h
            exact ⟨[], text, rest, rfl, fun _ ht => absurd ht List.not_mem_nil, hfirst⟩
        | ok value =>
            cases hrest : rest.mapM f with
            | ok values =>
                rw [hfirst, hrest] at h
                cases h
            | error later =>
                rw [hfirst, hrest] at h
                cases h
                obtain ⟨before, bad, after, rfl, hbefore, hbad⟩ := ih hrest
                exact ⟨text :: before, bad, after, rfl,
                  List.forall_mem_cons.mpr ⟨⟨value, hfirst⟩, hbefore⟩, hbad⟩
  · obtain ⟨before, text, after, rfl, hbefore, hbad⟩ := h
    induction before with
    | nil =>
        rw [List.nil_append, List.mapM_cons, hbad]
        rfl
    | cons first others ih =>
        obtain ⟨⟨value, hfirst⟩, hothers⟩ := List.forall_mem_cons.mp hbefore
        rw [List.cons_append, List.mapM_cons, hfirst, ih hothers]
        rfl

/-! ## What tokens come to -/

namespace Command

/--
The result of some tokens. An option that cannot be read comes first, unless help was asked for
before it; then help; then the lack of operands, the first operand that cannot be read, and last the
compaction that the options and the operands describe.
-/
inductive Means : List Token → Except CommandFault Command → Prop where
  | badOption {before after : List Token} {token : Token} {fault : CommandFault}
      (readableBefore : ∀ earlier ∈ before, earlier.Readable) (bad : token.Rejected fault) :
      Means (before ++ token :: after) (.error fault)
  | help {before after : List Token} (readableBefore : ∀ earlier ∈ before, earlier.Readable) :
      Means (before ++ .help :: after) (.ok .help)
  | missingBuffer {tokens : List Token} (readable : ∀ token ∈ tokens, token.Readable)
      (operands : tokens.filterMap Token.operand? = []) : Means tokens (.error .missingBuffer)
  | badBuffer {tokens : List Token} {text : String} {references : List String}
      {fault : CommandFault} (readable : ∀ token ∈ tokens, token.Readable)
      (operands : tokens.filterMap Token.operand? = text :: references)
      (bad : readBuffer text = .error fault) : Means tokens (.error fault)
  | badReference {tokens : List Token} {text reference : String} {before after : List String}
      {buffer : Buffer} {fault : CommandFault} (readable : ∀ token ∈ tokens, token.Readable)
      (operands : tokens.filterMap Token.operand? = text :: (before ++ reference :: after))
      (readsBuffer : readBuffer text = .ok buffer)
      (readsBefore : ∀ earlier ∈ before, ∃ slot, readReference earlier = .ok slot)
      (bad : readReference reference = .error fault) : Means tokens (.error fault)
  | compact {tokens : List Token} {text : String} {references : List String} {widths : List Nat}
      {buffer : Buffer} {slots : List Reference} (readable : ∀ token ∈ tokens, token.Readable)
      (readsWidths : List.Forall₂ (fun value width => readWidth value = .ok width)
        (tokens.filterMap Token.value?) widths)
      (operands : tokens.filterMap Token.operand? = text :: references)
      (readsBuffer : readBuffer text = .ok buffer)
      (readsSlots : List.Forall₂ (fun reference slot => readReference reference = .ok slot)
        references slots) :
      -- of several widths the last one counts, and of none single bytes
      Means tokens (.ok (.compact (widths.getLastD 1) { buffer, slots := slots.toArray }))

/-- A width can be read when it spells a number that fits into a word. -/
theorem readWidth_eq_ok_iff {text : String} {width : Nat} :
    readWidth text = .ok width ↔ Numeral.SpellsSigned width text ∧ width < UInt64.size := by
  have hfits : width < UInt64.size ↔ width ≤ wordLimit :=
    (Nat.le_sub_one_iff_lt (by decide)).symm
  rw [hfits, ← Numeral.read_eq_ok_iff, readWidth]
  cases Numeral.read 10 wordLimit text.toList with
  | error cause => simp
  | ok number => simp

variable {tokens : List Token}

/-- **Options that can be read leave the last of their widths, and operands leave it alone.** -/
theorem exists_widths_of_readable (h : ∀ token ∈ tokens, token.Readable) (width : Nat) :
    ∃ widths, List.Forall₂ (fun value width => readWidth value = .ok width)
        (tokens.filterMap Token.value?) widths ∧
      ∀ rest, settleWidth width (tokens ++ rest) = settleWidth (widths.getLastD width) rest := by
  induction tokens generalizing width with
  | nil => exact ⟨[], .nil, fun rest => rfl⟩
  | cons token others ih =>
      obtain ⟨htoken, hothers⟩ := List.forall_mem_cons.mp h
      cases htoken with
      | operand text => exact ih hothers width
      | @width text next hread =>
          obtain ⟨widths, hwidths, hsettle⟩ := ih hothers next
          refine ⟨next :: widths, .cons hread hwidths, fun rest => ?_⟩
          rw [List.cons_append, settleWidth, hread, List.getLastD_cons]
          exact hsettle rest

theorem settleWidth_of_rejected {before after : List Token} {token : Token} {fault : CommandFault}
    (hbefore : ∀ earlier ∈ before, earlier.Readable) (hbad : token.Rejected fault) (width : Nat) :
    settleWidth width (before ++ token :: after) = .error fault := by
  obtain ⟨widths, -, hsettle⟩ := exists_widths_of_readable hbefore width
  rw [hsettle]
  cases hbad with
  | missing => rfl
  | unreadable hread => rw [settleWidth, hread]

theorem settleWidth_of_help {before after : List Token}
    (hbefore : ∀ earlier ∈ before, earlier.Readable) (width : Nat) :
    settleWidth width (before ++ .help :: after) = .ok none := by
  obtain ⟨widths, -, hsettle⟩ := exists_widths_of_readable hbefore width
  rw [hsettle]
  rfl

/-- Where reading goes on to the end, the operands are read as a memory. -/
theorem ofTokens_of_readable (h : ∀ token ∈ tokens, token.Readable) {widths : List Nat}
    (hwidths : List.Forall₂ (fun value width => readWidth value = .ok width)
      (tokens.filterMap Token.value?) widths) :
    ofTokens tokens =
      (readMemory (tokens.filterMap Token.operand?)).map (.compact (widths.getLastD 1)) := by
  obtain ⟨found, hfound, hsettle⟩ := exists_widths_of_readable h 1
  -- a text is read as one width only
  obtain rfl : found = widths :=
    Except.ok.inj ((mapM_eq_ok_iff.mpr hfound).symm.trans (mapM_eq_ok_iff.mpr hwidths))
  have hsettled : settleWidth 1 tokens = .ok (some (found.getLastD 1)) := by
    have hend := hsettle []
    rwa [List.append_nil] at hend
  rw [ofTokens, hsettled]

/-- Where the operands are no memory, their fault is the result. -/
theorem ofTokens_of_readMemory_eq_error (h : ∀ token ∈ tokens, token.Readable)
    {fault : CommandFault} (hmemory : readMemory (tokens.filterMap Token.operand?) = .error fault) :
    ofTokens tokens = .error fault := by
  obtain ⟨widths, hwidths, -⟩ := exists_widths_of_readable h 1
  rw [ofTokens_of_readable h hwidths, hmemory]
  rfl

theorem means_of_readable (h : ∀ token ∈ tokens, token.Readable) :
    Means tokens (ofTokens tokens) := by
  obtain ⟨widths, hwidths, -⟩ := exists_widths_of_readable h 1
  rw [ofTokens_of_readable h hwidths]
  cases hoperands : tokens.filterMap Token.operand? with
  | nil => exact .missingBuffer h hoperands
  | cons text references =>
      rw [readMemory]
      cases hbuffer : readBuffer text with
      | error fault => exact .badBuffer h hoperands hbuffer
      | ok buffer =>
          cases hslots : references.mapM readReference with
          | ok slots => exact .compact h hwidths hoperands hbuffer (mapM_eq_ok_iff.mp hslots)
          | error fault =>
              obtain ⟨before, reference, after, rfl, hbefore, hbad⟩ := mapM_eq_error_iff.mp hslots
              exact .badReference h hoperands hbuffer hbefore hbad

theorem means_ofTokens (tokens : List Token) : Means tokens (ofTokens tokens) := by
  rcases Token.forall_readable_or_exists_first tokens with
    hall | ⟨before, token, after, rfl, hbefore, ⟨fault, hbad⟩ | rfl⟩
  · exact means_of_readable hall
  · rw [ofTokens, settleWidth_of_rejected hbefore hbad]
    exact .badOption hbefore hbad
  · rw [ofTokens, settleWidth_of_help hbefore]
    exact .help hbefore

theorem ofTokens_of_means {result : Except CommandFault Command} (h : Means tokens result) :
    ofTokens tokens = result := by
  cases h with
  | badOption hbefore hbad => rw [ofTokens, settleWidth_of_rejected hbefore hbad]
  | help hbefore => rw [ofTokens, settleWidth_of_help hbefore]
  | missingBuffer hread hoperands =>
      refine ofTokens_of_readMemory_eq_error hread ?_
      rw [hoperands, readMemory]
  | badBuffer hread hoperands hbad =>
      refine ofTokens_of_readMemory_eq_error hread ?_
      rw [hoperands, readMemory, hbad]
      rfl
  | badReference hread hoperands hbuffer hbefore hbad =>
      refine ofTokens_of_readMemory_eq_error hread ?_
      rw [hoperands, readMemory, hbuffer, mapM_eq_error_iff.mpr ⟨_, _, _, rfl, hbefore, hbad⟩]
      rfl
  | compact hread hwidths hoperands hbuffer hslots =>
      rw [ofTokens_of_readable hread hwidths, hoperands, readMemory, hbuffer,
        mapM_eq_ok_iff.mpr hslots]
      rfl

/-- **Tokens have one meaning.** -/
theorem ofTokens_eq_iff_means {result : Except CommandFault Command} :
    ofTokens tokens = result ↔ Means tokens result :=
  ⟨fun h => h ▸ means_ofTokens tokens, ofTokens_of_means⟩

/-! ## Options among operands -/

/-- Without the operands the options settle on the same. -/
theorem settleWidth_eq_of_values (hhelp : .help ∉ tokens) (hvalue : .width none ∉ tokens)
    (width : Nat) :
    settleWidth width tokens =
      settleWidth width ((tokens.filterMap Token.value?).map fun text => .width (some text)) := by
  induction tokens generalizing width with
  | nil => rfl
  | cons token rest ih =>
      obtain ⟨hnohelp, hrest⟩ := not_or.mp (List.mem_cons.not.mp hhelp)
      obtain ⟨hnovalue, hrest'⟩ := not_or.mp (List.mem_cons.not.mp hvalue)
      cases token with
      | help => exact absurd rfl hnohelp
      | operand text => exact ih hrest hrest' width
      | width value =>
          cases value with
          | none => exact absurd rfl hnovalue
          | some text =>
              have hfirst : (Token.width (some text)).value? = some text := rfl
              rw [List.filterMap_cons_some hfirst, List.map_cons, settleWidth, settleWidth]
              cases readWidth text with
              | error fault => rfl
              | ok next => exact ih hrest hrest' next

/-- **How options and operands are interleaved makes no difference.** -/
theorem ofTokens_congr {others : List Token} (hhelp : .help ∉ tokens)
    (hvalue : .width none ∉ tokens) (hhelp' : .help ∉ others) (hvalue' : .width none ∉ others)
    (hvalues : tokens.filterMap Token.value? = others.filterMap Token.value?)
    (hoperands : tokens.filterMap Token.operand? = others.filterMap Token.operand?) :
    ofTokens tokens = ofTokens others := by
  rw [ofTokens, ofTokens, settleWidth_eq_of_values hhelp hvalue,
    settleWidth_eq_of_values hhelp' hvalue', hvalues, hoperands]

end Command

/--
**Arguments are read with an exact precedence.**

Arguments are scanned in one way, in which the option for the width always takes the argument
behind it. What they come to is what their tokens mean: the fault of the first option that cannot be
read, if help is not asked for before it; else help, if it is asked for at all; else the fault for
having no operand, or that of the first operand that cannot be read; else the compaction of the
memory that the operands describe, by the last of the widths, or by single bytes if there is none. A
width can be read if it is a number that fits into a word, in decimal digits with or without a plus
sign.

So other arguments with the same widths and the same operands, each in their order, come to the
same, as long as neither ask for help and every option for a width has its value.
-/
theorem ofArguments_exact (arguments : List String) :
    ∃ tokens, (∀ others, Token.Scans arguments others ↔ others = tokens) ∧
      (∀ result, Command.ofArguments arguments = result ↔ Command.Means tokens result) ∧
      (∀ value width, Command.readWidth value = .ok width ↔
        Numeral.SpellsSigned width value ∧ width < UInt64.size) ∧
      ∀ rearranged others, Token.Scans rearranged others →
        .help ∉ tokens → .width none ∉ tokens → .help ∉ others → .width none ∉ others →
        tokens.filterMap Token.value? = others.filterMap Token.value? →
        tokens.filterMap Token.operand? = others.filterMap Token.operand? →
        Command.ofArguments arguments = Command.ofArguments rearranged := by
  refine ⟨Token.ofArguments arguments, fun others => Token.scans_iff,
    fun result => Command.ofTokens_eq_iff_means, fun value width => Command.readWidth_eq_ok_iff,
    fun rearranged others hscans => ?_⟩
  obtain rfl := hscans.eq_ofArguments
  exact Command.ofTokens_congr

theorem ofArguments_exact_shuffled :
    Command.ofArguments ["-b", "2", "FFAA_0000 BBCC", "0", "--block-size", "1", "null"] =
        Command.ofArguments ["FFAA_0000 BBCC", "--block-size", "2", "0", "null", "-b", "1"] ∧
      Command.ofArguments ["FF", "-b", "-h", "--help"] =
        .error (.badWidth "-h" .invalidDigit) := by
  obtain ⟨tokens, hscans, -, -, hshuffled⟩ :=
    ofArguments_exact ["-b", "2", "FFAA_0000 BBCC", "0", "--block-size", "1", "null"]
  obtain ⟨stopping, hstopping, hmeans, -⟩ := ofArguments_exact ["FF", "-b", "-h", "--help"]
  obtain rfl := (hscans _).mp (Token.scans_ofArguments _)
  obtain rfl := (hstopping _).mp (Token.scans_ofArguments _)
  -- the value of the option is not one for help, and it is read before the one that is
  have hbad : Command.Means ([.operand "FF"] ++ .width (some "-h") :: [.help])
      (.error (.badWidth "-h" .invalidDigit)) :=
    .badOption (List.forall_mem_singleton.mpr (.operand "FF")) (.unreadable (by decide))
  exact ⟨hshuffled _ _ (Token.scans_ofArguments _) (by decide) (by decide) (by decide) (by decide)
    (by decide) (by decide), (hmeans _).mpr hbad⟩

end Compaction

import ThemeSheet.Proofs.ReaderSteps

/-!
# Reading by parts

Readers of parts read what the plain readers read.  A stylesheet that they refuse is refused
for an error of the stylesheet, never because a token is missing where the reader of a part
stops or left over behind the part.  The errors about what is not there, a block, the end of
a block or the end of a group, come only when everything has been read.
-/

namespace ThemeSheet

/-- Whether an error is about something that is missing up to the end of the text. -/
def SyntaxError.comesAtEnd : SyntaxError → Bool
  | expectedBlock | unterminatedBlock | unclosedGroup _ _ => true
  | _ => false

/-- Whether a reading by parts gives what a plain one gives: the same result, or the same
error, and if that is one that comes at the end, then with nothing unread. -/
structure Agrees {α β : Type} (f : α → β) (plain : Except Refusal α)
    (parted : Except Halt β) : Prop where
  ok : ∀ result, plain = .ok result → parted = .ok (f result)
  error : ∀ refusal, plain = .error refusal → ∃ unread,
    parted = .error ⟨.refused refusal.cause, refusal.rest, unread⟩ ∧
      (refusal.cause.comesAtEnd → unread = [])

section Agrees

variable {α β γ δ : Type} {f : α → β} {plain : Except Refusal α} {parted : Except Halt β}

theorem agrees_ok (result : α) : Agrees f (.ok result) (.ok (f result)) where
  ok := by
    intro found hfound
    cases hfound
    rfl
  error := by
    intro refusal hrefusal
    cases hrefusal

theorem agrees_error {error : SyntaxError} {mark unread : List Lexeme}
    (hunread : error.comesAtEnd → unread = []) :
    Agrees f (.error ⟨error, mark⟩) (.error ⟨.refused error, mark, unread⟩) where
  ok := by
    intro result hresult
    cases hresult
  error := by
    intro refusal hrefusal
    cases hrefusal
    exact ⟨unread, rfl, hunread⟩

theorem Agrees.map (hagrees : Agrees f plain parted) {f' : γ → δ} {g : α → γ} {g' : β → δ}
    (hmap : ∀ result, g' (f result) = f' (g result)) :
    Agrees f' (plain.map g) (parted.map g') where
  ok := by
    intro result hresult
    obtain ⟨found, hfound, rfl⟩ := exists_of_map_eq_ok hresult
    rw [hagrees.ok found hfound, Except.map, hmap]
  error := by
    intro refusal hrefusal
    obtain ⟨unread, hparted, hunread⟩ := hagrees.error refusal (eq_error_of_map hrefusal)
    exact ⟨unread, by rw [hparted, Except.map], hunread⟩

theorem Agrees.bind (hagrees : Agrees f plain parted) {f' : γ → δ}
    {g : α → Except Refusal γ} {g' : β → Except Halt δ}
    (hbind : ∀ result, plain = .ok result → Agrees f' (g result) (g' (f result))) :
    Agrees f' (plain >>= g) (parted >>= g') where
  ok := by
    intro result hresult
    obtain ⟨found, hfound, hlater⟩ := exists_of_bind_eq_ok hresult
    rw [hagrees.ok found hfound]
    exact (hbind found hfound).ok result hlater
  error := by
    intro refusal hrefusal
    rcases error_or_of_bind hrefusal with hfirst | ⟨found, hfound, hlater⟩
    · obtain ⟨unread, hparted, hunread⟩ := hagrees.error refusal hfirst
      exact ⟨unread, by rw [hparted]; rfl, hunread⟩
    · rw [hagrees.ok found hfound]
      exact (hbind found hfound).error refusal hlater

/-- What is done with a result by parts alone. -/
theorem Agrees.next (hagrees : Agrees f plain parted) (g : β → γ) :
    Agrees (g ∘ f) plain (parted.map g) where
  ok := by
    intro result hresult
    rw [hagrees.ok result hresult]
    rfl
  error := by
    intro refusal hrefusal
    obtain ⟨unread, hparted, hunread⟩ := hagrees.error refusal hrefusal
    exact ⟨unread, by rw [hparted, Except.map], hunread⟩

end Agrees

namespace Reader

variable {stops : List Delimiter} {lexeme : Lexeme} {lexemes rest : List Lexeme}

/-- A part that is read in full up to a delimiter is read the same by a reader of its own. -/
theorem agrees_untilBefore {α : Type} {part : Reader → Except Halt (α × Reader)}
    {plain : Except Refusal (α × List Lexeme)} {delimiters : List Delimiter}
    (hpart : Exhausts part)
    (hagrees : Agrees (Prod.map id (before (stops ++ delimiters))) plain
      (part (before (stops ++ delimiters) lexemes)))
    (hends : ∀ result left, plain = .ok (result, left) → ∀ lexeme ∈ left.head?,
      (before (stops ++ delimiters) left).stopsAt lexeme.value) :
    Agrees (Prod.map id (before stops)) plain
      (untilBefore part delimiters (before stops lexemes)) where
  ok := by
    rintro ⟨result, left⟩ hread
    have hstop := toStop_of_stop (next_before_of_stopsAt (hends result left hread))
    have hleft := hagrees.ok _ hread
    unfold before at hleft hstop
    simp only [untilBefore, before, hpart.entirely_eq, hleft, bind, Except.bind, Prod.map, id,
      hstop]
    rfl
  error := by
    intro refusal hrefusal
    obtain ⟨unread, hhalt, hunread⟩ := hagrees.error refusal hrefusal
    refine ⟨unread, ?_, hunread⟩
    unfold before at hhalt
    simp only [untilBefore, before, hpart.entirely_eq, hhalt, bind, Except.bind]

/-! ## Selectors -/

section Selectors

variable {selector : List Char} {mark comments : List Lexeme}

/-- What the reader of selectors stops in front of. -/
def headerStops : List Delimiter := [.blockOpening]

theorem stopsAt_headerStops (token : Token) (lexemes : List Lexeme) :
    (before headerStops lexemes).stopsAt token = decide (token = .opening .curly) :=
  Bool.or_false _

theorem nextPastComments_headerStops
    (hmark : comments ++ lexeme :: rest = mark)
    (hcomments : ∀ comment ∈ comments, comment.value = .comment)
    (hcomment : lexeme.value ≠ .comment) (hopening : lexeme.value ≠ .opening .curly) :
    (before headerStops mark).nextPastComments =
      (some lexeme, ⟨rest, headerStops, lexeme.value.opens?⟩) := by
  rw [← hmark, nextPastComments_before hcomments (by simpa using hcomment)]
  apply next_before
  simpa [stopsAt_headerStops] using hopening

theorem opens?_of_selectorText? {token : Token} {text : List Char}
    (htext : token.selectorText? = some text) : token.opens? = none := by
  cases token with
  | function name | opening bracket => cases htext
  | _ => rfl

theorem agrees_finishSelector (reader : Reader) (selector : List Char) (mark : List Lexeme) :
    Agrees id (closeSelector selector mark) (reader.finishSelector selector mark) := by
  unfold finishSelector closeSelector
  split
  next => exact agrees_error (by simp [SyntaxError.comesAtEnd])
  next => exact agrees_ok _

/-- Selectors are read the same by the reader of their part. -/
theorem agrees_selectors (hmark : comments ++ lexemes = mark)
    (hcomments : ∀ comment ∈ comments, comment.value = .comment) :
    Agrees (Prod.map id (before headerStops)) (readSelectors selector mark lexemes)
      (selectors selector (before headerStops mark)) := by
  fun_induction readSelectors selector mark lexemes generalizing comments with
  | case1 selector mark =>
      have hnext : (before headerStops mark).nextPastComments =
          (none, before headerStops []) := by
        rw [← hmark, nextPastComments_before hcomments (by simp)]
        rfl
      rw [selectors_of_stop hnext]
      exact (agrees_finishSelector _ selector []).map (fun _ => rfl)
  | case2 selector mark lexeme rest hvalue =>
      have hnext : (before headerStops mark).nextPastComments =
          (none, before headerStops (lexeme :: rest)) := by
        rw [← hmark, nextPastComments_before hcomments (by simp [hvalue])]
        apply next_before_of_stopsAt
        simp [stopsAt_headerStops, hvalue]
      rw [selectors_of_stop hnext]
      exact (agrees_finishSelector _ selector (lexeme :: rest)).map (fun _ => rfl)
  | case3 selector mark lexeme rest hvalue ih =>
      -- Comments are read one by one here, and by the reader of parts all at once.
      have hlater : comments ++ [lexeme] ++ rest = mark := by simpa using hmark
      apply ih hlater
      rw [List.forall_mem_append, List.forall_mem_singleton]
      exact ⟨hcomments, hvalue⟩
  | case4 selector mark lexeme rest hvalue ih =>
      have hnext := nextPastComments_headerStops hmark hcomments (by simp [hvalue])
        (by simp [hvalue])
      rw [selectors_of_lexeme hnext, hvalue]
      exact ih (List.nil_append rest) (by simp)
  | case5 selector mark lexeme rest hvalue ih =>
      have hnext := nextPastComments_headerStops hmark hcomments (by simp [hvalue])
        (by simp [hvalue])
      rw [selectors_of_lexeme hnext, hvalue]
      refine (agrees_finishSelector _ selector mark).bind (fun closed hclosed => ?_)
      exact (ih (List.nil_append rest) (by simp)).map (fun _ => rfl)
  | case6 selector mark lexeme rest text hopening hcomment hspace hcomma htext ih =>
      have hnext := nextPastComments_headerStops hmark hcomments hcomment hopening
      rw [selectors_of_lexeme hnext]
      split
      next hvalue => exact absurd hvalue hspace
      next hvalue => exact absurd hvalue hcomma
      next =>
        rw [htext, opens?_of_selectorText? htext]
        exact ih (List.nil_append rest) (by simp)
  | case7 selector mark lexeme rest hopening hcomment hspace hcomma htext =>
      have hnext := nextPastComments_headerStops hmark hcomments hcomment hopening
      rw [selectors_of_lexeme hnext]
      split
      next hvalue => exact absurd hvalue hspace
      next hvalue => exact absurd hvalue hcomma
      next =>
        rw [htext]
        exact agrees_error (by simp [SyntaxError.comesAtEnd])

end Selectors

/-! ## Values -/

section Values

variable {property : List Char} {source : List Lexeme}

/-- What the reader of a block stops in front of. -/
def blockStops : List Delimiter := [.closing .curly]

/-- What the reader of a value stops in front of. -/
def valueStops : List Delimiter := blockStops ++ [.semicolon]

theorem stopsAt_valueStops (token : Token) (lexemes : List Lexeme) :
    (before valueStops lexemes).stopsAt token = token.endsValue := by
  cases token with
  | closing bracket => cases bracket <;> rfl
  | _ => rfl

theorem next_before_valueStops (hends : ¬lexeme.value.endsValue) :
    (before valueStops (lexeme :: rest)).next =
      (some lexeme, ⟨rest, valueStops, lexeme.value.opens?⟩) :=
  next_before (by simpa [stopsAt_valueStops] using hends)

/-- A value is read the same by the reader of its part. -/
theorem agrees_value {spaced : Bool} (hspelled : Spelled lexemes) :
    Agrees (Prod.map id (before valueStops)) (readComponents property spaced lexemes)
      (value property spaced (before valueStops lexemes)) := by
  fun_induction readComponents property spaced lexemes with
  | case1 spaced =>
      rw [value_of_stop rfl]
      exact agrees_ok ([], [])
  | case2 spaced lexeme rest hends =>
      have hstops : ∀ first ∈ (lexeme :: rest).head?,
          (before valueStops (lexeme :: rest)).stopsAt first.value := by
        simpa [stopsAt_valueStops] using hends
      rw [value_of_stop (next_before_of_stopsAt hstops)]
      exact agrees_ok ([], lexeme :: rest)
  | case3 spaced lexeme rest hends hstray =>
      have hgap : ¬lexeme.value.isGap := by
        intro hgap
        rw [(classes_of_isGap hgap).2] at hstray
        cases hstray
      rw [value_of_lexeme (next_before_valueStops hends), if_neg hgap, if_pos hstray]
      exact agrees_error (by simp [SyntaxError.comesAtEnd])
  | case4 spaced lexeme rest hends hstray hgap ih =>
      rw [value_of_lexeme (next_before_valueStops hends), if_pos hgap, opens?_of_isGap hgap]
      exact ih (hspelled.of_isSuffix (List.suffix_cons lexeme rest))
  | case5 spaced lexeme rest hends hstray hgap hopens ih =>
      rw [value_of_lexeme (next_before_valueStops hends), if_neg hgap, if_neg hstray, hopens]
      have hslice : (before valueStops rest).sliceFrom (lexeme :: rest) = [lexeme] :=
        sliceFrom_append [lexeme] (before valueStops rest)
      refine (ih (hspelled.of_isSuffix (List.suffix_cons lexeme rest))).map ?_
      rintro ⟨others, left⟩
      exact congrArg (fun lexemes => (⟨spaced, lexemes⟩ :: others, before valueStops left)) hslice
  | case6 spaced lexeme rest hends hstray hgap bracket hopens hgroup =>
      rw [value_of_lexeme (next_before_valueStops hends), if_neg hgap, if_neg hstray, hopens,
        endComponent_of_eq_none hgroup]
      exact agrees_error (fun _ => rfl)
  | case7 spaced lexeme rest hends hstray hgap bracket hopens group left hgroup ih =>
      have hrest := hspelled.of_isSuffix (List.suffix_cons lexeme rest)
      rw [value_of_lexeme (next_before_valueStops hends), if_neg hgap, if_neg hstray, hopens,
        endComponent_of_eq_some hrest hgroup]
      have hleft := append_of_takeGroup hgroup
      have hslice : (before valueStops left).sliceFrom (lexeme :: rest) = lexeme :: group := by
        rw [← hleft, ← List.cons_append]
        exact sliceFrom_append (lexeme :: group) (before valueStops left)
      refine (ih (hrest.of_isSuffix ⟨group, hleft⟩)).map ?_
      rintro ⟨others, last⟩
      exact congrArg (fun lexemes => (⟨spaced, lexemes⟩ :: others, before valueStops last)) hslice

/-- The semicolon behind a value goes with it. -/
theorem agrees_untilAfter_value (hspelled : Spelled source) :
    Agrees (Prod.map id (fun left => (before blockStops left).next.2.settled))
      (readComponents name false source)
      (untilAfter (value name false) [.semicolon] (before blockStops source)) := by
  have hvalue : Agrees (Prod.map id (before blockStops)) (readComponents name false source)
      (untilBefore (value name false) [.semicolon] (before blockStops source)) := by
    apply agrees_untilBefore (exhausts_value name false) (agrees_value hspelled)
    intro components left hread lexeme hlexeme
    obtain ⟨row, -, -, hends⟩ := readComponents_eq_ok_iff.mp hread
    exact (stopsAt_valueStops lexeme.value left).trans (hends lexeme hlexeme)
  exact hvalue.next (Prod.map id (fun after => after.next.2.settled))

end Values

/-! ## Declarations -/

section Declarations

variable {name : List Char} {source left : List Lexeme}

theorem stopsAt_blockStops (token : Token) (lexemes : List Lexeme) :
    (before blockStops lexemes).stopsAt token = decide (token = .closing .curly) :=
  Bool.or_false _

theorem declarations_of_stop
    (hends : ∀ lexeme ∈ (dropGaps lexemes).head?, lexeme.value = .closing .curly) :
    declarations (before blockStops lexemes) = .ok ([], before blockStops (dropGaps lexemes)) := by
  have hnext : (before blockStops (dropGaps lexemes)).next =
      (none, before blockStops (dropGaps lexemes)) := by
    apply next_before_of_stopsAt
    simpa [stopsAt_blockStops] using hends
  exact declarations_of_exhausted (isExhausted_of_next_eq_none hnext)

/-- The first token of a declaration, or a semicolon in the place of one. -/
theorem nextPastGaps_blockStops (hbody : dropGaps lexemes = lexeme :: rest)
    (hclosing : lexeme.value ≠ .closing .curly) :
    (before blockStops lexemes).skipGaps.nextPastGaps =
      (some lexeme, ⟨rest, blockStops, lexeme.value.opens?⟩) := by
  have hgaps : dropGaps (dropGaps lexemes) = lexeme :: rest := by
    rw [dropGaps_dropGaps, hbody]
  have hstops : (before blockStops rest).stopsAt lexeme.value = false := by
    simpa [stopsAt_blockStops] using hclosing
  exact nextPastGaps_before hgaps hstops

/-- A semicolon that was read with a value need not be read again. -/
theorem declarations_past_semicolon (hends : ∀ lexeme ∈ left.head?, lexeme.value.endsValue) :
    declarations (before blockStops left).next.2.settled =
      declarations (before blockStops left) := by
  cases left with
  | nil => rfl
  | cons lexeme rest =>
      by_cases hclosing : lexeme.value = .closing .curly
      · have hnext : (before blockStops (lexeme :: rest)).next =
            (none, before blockStops (lexeme :: rest)) := by
          apply next_before_of_stopsAt
          simpa [stopsAt_blockStops] using hclosing
        rw [hnext]
        rfl
      · have hsemicolon : lexeme.value = .semicolon := by
          have hlexeme := hends lexeme rfl
          cases hvalue : lexeme.value <;> simp_all [Token.endsValue]
        have hbody : dropGaps (lexeme :: rest) = lexeme :: rest :=
          dropGaps_cons_of_not_isGap (by simp [hsemicolon, Token.isGap]) rest
        have hnext : (before blockStops (lexeme :: rest)).next =
            (some lexeme, ⟨rest, blockStops, lexeme.value.opens?⟩) :=
          next_before (by simpa [stopsAt_blockStops] using hclosing)
        rw [declarations_of_lexeme (nextPastGaps_blockStops hbody hclosing), hnext, hsemicolon]
        rfl

theorem declarations_of_colon {colonSource : List Char}
    (hbody : dropGaps lexemes = lexeme :: rest) (hname : lexeme.value = .ident name)
    (hcolon : dropGaps rest = ⟨.colon, colonSource⟩ :: source) :
    declarations (before blockStops lexemes) =
      untilAfter (value name false) [.semicolon] (before blockStops source) >>=
        fun (components, left) =>
          if (valueText components).isEmpty then
            left.refuse (.missingValue name) (lexeme :: rest)
          else
            (declarations left).map (fun (others, last) =>
              (Declaration.ofChars name (valueText components) :: others, last)) := by
  have hfirst := nextPastGaps_blockStops hbody (by simp [hname])
  have hnext : (⟨rest, blockStops, none⟩ : Reader).nextPastGaps =
      (some ⟨.colon, colonSource⟩, before blockStops source) :=
    nextPastGaps_before hcolon rfl
  rw [declarations_of_lexeme hfirst, hname]
  simp only [Token.opens?, expectColon, hnext, Option.any_some, decide_true, if_true]
  rw [← hbody]
  rfl

/-- Declarations are read the same by the reader of their block. -/
theorem agrees_declarations (hspelled : Spelled lexemes) :
    Agrees (Prod.map id (before blockStops)) (readDeclarations lexemes)
      (declarations (before blockStops lexemes)) := by
  fun_induction readDeclarations lexemes with
  | case1 lexemes hbody =>
      rw [declarations_of_stop (by simp [hbody]), hbody]
      exact agrees_ok ([], [])
  | case2 lexemes lexeme rest hbody hvalue =>
      rw [declarations_of_stop (by simp [hbody, hvalue]), hbody]
      exact agrees_ok ([], lexeme :: rest)
  | case3 lexemes lexeme rest hbody hvalue ih =>
      rw [declarations_of_lexeme (nextPastGaps_blockStops hbody (by simp [hvalue])), hvalue]
      exact ih (hspelled.of_dropGaps hbody)
  | case4 lexemes lexeme rest hbody name hname colonSource source hcolon found hvalue =>
      have hsource := (hspelled.of_dropGaps hbody).of_dropGaps hcolon
      obtain ⟨unread, hread, hunread⟩ := (agrees_untilAfter_value hsource).error found hvalue
      rw [declarations_of_colon hbody hname hcolon, hread]
      exact agrees_error hunread
  | case5 lexemes lexeme rest hbody name hname colonSource source hcolon
      components after hvalue hempty =>
      have hsource := (hspelled.of_dropGaps hbody).of_dropGaps hcolon
      rw [declarations_of_colon hbody hname hcolon,
        (agrees_untilAfter_value hsource).ok _ hvalue]
      simp only [bind, Except.bind, Prod.map, id]
      rw [if_pos hempty]
      exact agrees_error (by simp [SyntaxError.comesAtEnd])
  | case6 lexemes lexeme rest hbody name hname colonSource source hcolon
      components after hvalue hnonempty ih =>
      have hsource := (hspelled.of_dropGaps hbody).of_dropGaps hcolon
      obtain ⟨row, -, -, hends⟩ := readComponents_eq_ok_iff.mp hvalue
      rw [declarations_of_colon hbody hname hcolon,
        (agrees_untilAfter_value hsource).ok _ hvalue]
      simp only [bind, Except.bind, Prod.map, id]
      rw [if_neg hnonempty, declarations_past_semicolon hends]
      exact (ih (hsource.of_isSuffix (isSuffix_of_readComponents hvalue))).map (fun _ => rfl)
  | case7 lexemes lexeme rest hbody name hname hcolon =>
      have hnone : (⟨rest, blockStops, none⟩ : Reader).expectColon.1 = false :=
        expectColon_before_eq_false hcolon
      rw [declarations_of_lexeme (nextPastGaps_blockStops hbody (by simp [hname])), hname]
      simp only [Token.opens?, hnone, Bool.false_eq_true, if_false]
      exact agrees_error (by simp [SyntaxError.comesAtEnd])
  | case8 lexemes lexeme rest hbody hclosing hsemicolon hident =>
      rw [declarations_of_lexeme (nextPastGaps_blockStops hbody hclosing)]
      split
      next hvalue => exact absurd hvalue hsemicolon
      next name hvalue => exact absurd hvalue (hident name)
      next =>
        rw [← hbody]
        exact agrees_error (by simp [SyntaxError.comesAtEnd])

theorem agrees_nested_block {entered : Option Bracket} (hspelled : Spelled lexemes) :
    Agrees (fun (declarations, left) =>
        ((declarations, left), before stops (pastBlock .curly left)))
      (readDeclarations lexemes) (nested block .curly ⟨lexemes, stops, entered⟩) where
  ok := by
    rintro ⟨declarations, left⟩ hread
    have hgaps : dropGaps left = left := by
      cases left with
      | nil => rfl
      | cons closing left =>
          exact dropGaps_cons_of_not_isGap
            (by simp [eq_closing_of_readDeclarations hread, Token.isGap]) left
    have hdeclarations := (agrees_declarations hspelled).ok _ hread
    unfold before blockStops at hdeclarations
    simp only [nested, exhausts_block.entirely_eq, block, hdeclarations, bind, Except.bind,
      Prod.map, id, pure, Except.pure, skipGaps, settled, hgaps]
    rfl
  error := by
    intro refusal hrefusal
    obtain ⟨unread, hhalt, hunread⟩ := (agrees_declarations hspelled).error refusal hrefusal
    refine ⟨unread, ?_, hunread⟩
    unfold before blockStops at hhalt
    simp only [nested, exhausts_block.entirely_eq, block, hhalt, bind, Except.bind]

end Declarations

/-! ## Rules -/

theorem agrees_rule (hspelled : Spelled lexemes) :
    Agrees (Prod.map id (before [])) (readRule lexemes) (rule (before [] lexemes)) := by
  have hheader : Agrees (Prod.map id (before [])) (readSelectors [] lexemes lexemes)
      (untilBefore (selectors []) [.blockOpening] (before [] lexemes)) := by
    refine agrees_untilBefore (exhausts_selectors []) ?_ ?_
    · exact agrees_selectors (List.nil_append lexemes) (by simp)
    · intro selectors left hread lexeme hlexeme
      obtain ⟨header, -, -, hopening⟩ := exists_header_of_readSelectors hread
      exact (stopsAt_headerStops lexeme.value left).trans
        (decide_eq_true (hopening lexeme hlexeme))
  unfold readRule rule
  refine hheader.bind ?_
  rintro ⟨selectors, block⟩ hselectors
  have hblock := hspelled.of_isSuffix (isSuffix_of_readSelectors hselectors)
  cases block with
  | nil => exact agrees_error (fun _ => rfl)
  | cons brace body =>
      obtain ⟨header, -, -, hopening⟩ := exists_header_of_readSelectors hselectors
      rcases brace with ⟨token, source⟩
      obtain rfl : token = .opening .curly := hopening _ rfl
      have hbody := hblock.of_isSuffix (List.suffix_cons _ body)
      refine (agrees_nested_block hbody).bind ?_
      rintro ⟨declarations, left⟩ hdeclarations
      cases left with
      | nil => exact agrees_error (fun _ => rfl)
      | cons closing left =>
          have hclosing := eq_closing_of_readDeclarations hdeclarations
          have hsource : closing.source = [Bracket.curly.closing] := by
            apply hbody closing _ .curly hclosing
            exact (isSuffix_of_readDeclarations hdeclarations).mem List.mem_cons_self
          simp only [pastBlock_cons_of_closing hclosing]
          split
          next => exact agrees_ok _
          next hopen => exact absurd (closedBy_cons hsource) hopen

/-- Rules are read the same by parts. -/
theorem agrees_rules (hspelled : Spelled lexemes) :
    Agrees id (readRules lexemes) (rules (before [] lexemes)) := by
  fun_induction readRules lexemes with
  | case1 lexemes hgaps =>
      rw [rules_of_exhausted (by rw [skipGaps_before, hgaps]; rfl)]
      exact agrees_ok []
  | case2 lexemes lexeme rest hgaps found hrule =>
      have hblock := hspelled.of_isSuffix (hgaps ▸ dropGaps_isSuffix lexemes)
      obtain ⟨unread, hhalt, hunread⟩ := (agrees_rule hblock).error found hrule
      rw [rules_of_rule (isExhausted_before_eq_false hgaps), skipGaps_before, hgaps, hhalt]
      exact agrees_error hunread
  | case3 lexemes lexeme rest hgaps rule left hrule ih =>
      have hblock := hspelled.of_isSuffix (hgaps ▸ dropGaps_isSuffix lexemes)
      rw [rules_of_rule (isExhausted_before_eq_false hgaps), skipGaps_before, hgaps,
        (agrees_rule hblock).ok _ hrule]
      exact (ih (hblock.of_isSuffix (isSuffix_of_readRule hrule))).map (fun _ => rfl)

end Reader

/-! ## Stylesheets -/

/-- A stylesheet that is read by parts is refused for an error of the stylesheet alone, and
the errors about what is missing come when all of it has been read.  Each part that is read
leaves nothing for its check to find. -/
theorem readByParts_agrees_readStylesheet (css : String) :
    (∀ rules, readStylesheet css = .ok rules → readByParts css = .ok rules) ∧
      (∀ fault, readStylesheet css = .error fault →
        ∃ halt, readByParts css = .error halt ∧ halt.cause = .refused fault.cause ∧
          halt.report css = (fault.message, fault.location) ∧
          (fault.cause.comesAtEnd → halt.unread = [])) ∧
      Reader.Exhausts (Reader.selectors []) ∧ Reader.Exhausts Reader.block ∧
      (∀ property, Reader.Exhausts (Reader.value property false)) ∧
      Reader.Exhausts Reader.toEnd := by
  have hagrees := Reader.agrees_rules (spelled_lex css.toList)
  refine ⟨?_, ?_, Reader.exhausts_selectors [], Reader.exhausts_block,
    fun property => Reader.exhausts_value property false, Reader.exhausts_toEnd⟩
  · intro rules hread
    exact hagrees.ok rules (readStylesheet_eq_ok_iff.mp hread)
  · intro fault hread
    unfold readStylesheet at hread
    cases hrules : readRules (lex css.toList) with
    | ok rules =>
        rw [hrules] at hread
        cases hread
    | error refusal =>
        rw [hrules] at hread
        cases hread
        obtain ⟨unread, hhalt, hunread⟩ := hagrees.error refusal hrules
        exact ⟨_, hhalt, rfl, rfl, hunread⟩

/-- A block that the text does not close. -/
def unclosedSheet : String := "A\x7b"

def unclosedTokens : List Lexeme := [⟨.ident ['A'], ['A']⟩, ⟨.opening .curly, ['\x7b']⟩]

theorem lex_unclosedSheet : lex unclosedSheet.toList = unclosedTokens := by
  decide +kernel

theorem readStylesheet_unclosedSheet :
    readStylesheet unclosedSheet = .error ⟨.unterminatedBlock, ⟨1, 2⟩⟩ := by
  have hselectors : readSelectors [] unclosedTokens unclosedTokens =
      .ok (["A"], unclosedTokens.tail) := rfl
  have hdeclarations : readDeclarations [] = .ok ([], []) := by
    rw [readDeclarations]
    rfl
  have hrule : readRule unclosedTokens = .error ⟨.unterminatedBlock, unclosedTokens.tail⟩ := by
    rw [readRule, hselectors]
    change readDeclarations [] >>= _ = _
    rw [hdeclarations]
    rfl
  have hblock : dropGaps unclosedTokens = unclosedTokens := rfl
  rw [readStylesheet, lex_unclosedSheet, readRules_of_block hblock (List.cons_ne_nil _ _), hrule]
  rfl

/-- The block is refused with nothing unread. -/
theorem readByParts_unclosedSheet :
    readStylesheet unclosedSheet = .error ⟨.unterminatedBlock, ⟨1, 2⟩⟩ ∧
      ∃ halt, readByParts unclosedSheet = .error halt ∧
        halt.cause = .refused .unterminatedBlock ∧
        halt.report unclosedSheet = ("Unterminated block, expected '\x7d'", ⟨1, 2⟩) ∧
        halt.unread = [] := by
  have hread := readStylesheet_unclosedSheet
  obtain ⟨halt, hhalt, hcause, hreport, hunread⟩ :=
    (readByParts_agrees_readStylesheet unclosedSheet).2.1 _ hread
  have hmessage : SyntaxError.unterminatedBlock.message =
      "Unterminated block, expected '\x7d'" := by decide
  exact ⟨hread, halt, hhalt, hcause, hmessage ▸ hreport, hunread rfl⟩

end ThemeSheet

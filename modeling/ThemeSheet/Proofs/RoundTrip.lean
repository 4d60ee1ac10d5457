import ThemeSheet.Proofs.Locality
import ThemeSheet.Proofs.WrittenTokens
import Mathlib.Data.List.Basic

/-!
# Rules read back as they were written

A selector is read token by token, but its tokens are not its pieces: words
that touch are one token, and so are a hash and the words behind it.  Before
anything that ends a segment, the text of the pieces is collected unchanged.
-/

namespace ThemeSheet

/-! ## Pieces -/

def Word.append (front back : Word) : Word where
  first := front.first
  rest := front.rest ++ back.chars
  isWordStart_first := front.isWordStart_first
  all_isWordChar := by
    rw [List.all_append, front.all_isWordChar]
    exact List.all_eq_true.mpr back.isWordChar_of_mem_chars

/-- What may stand behind a segment that was written. -/
def EndsSegment (text : List Char) : Prop :=
  ∀ c ∈ text.head?, c ∈ [' ', ',', '\x7b']

section Pieces

variable {result : Except Refusal (List String × List Lexeme)}
variable {c : Char} {selector rest : List Char} {pieces : List Piece}

theorem endsWord_cons (hc : isNameChar c = false ∧ c ≠ '\\' ∧ c ≠ '(') (text : List Char) :
    EndsWord (c :: text) := by
  intro first hfirst
  cases hfirst
  exact hc

theorem EndsSegment.endsWord (hends : EndsSegment rest) : EndsWord rest := by
  cases rest with
  | nil =>
      intro c hc
      cases hc
  | cons c rest =>
      have hc := hends c rfl
      simp only [List.mem_cons, List.not_mem_nil, or_false] at hc
      rcases hc with rfl | rfl | rfl <;> exact endsWord_cons (by decide) rest

theorem endsSegment_cons (hc : c ∈ [' ', ',', '\x7b']) (text : List Char) :
    EndsSegment (c :: text) := by
  intro first hfirst
  cases hfirst
  exact hc

/-- A word and the pieces behind it, up to where the word ends. -/
theorem exists_whole_word (word : Word) (pieces : List Piece) :
    ∃ (whole : Word) (others : List Piece),
      word.chars ++ piecesText pieces = whole.chars ++ piecesText others ∧
      ∀ rest, EndsSegment rest → EndsWord (piecesText others ++ rest) := by
  induction pieces generalizing word with
  | nil => exact ⟨word, [], rfl, fun rest hends => hends.endsWord⟩
  | cons piece pieces ih =>
      cases piece with
      | element more =>
          obtain ⟨whole, others, htext, hends⟩ := ih (word.append more)
          refine ⟨whole, others, ?_, hends⟩
          rw [← htext, piecesText, List.flatMap_cons, ← List.append_assoc]
          rfl
      | id name =>
          exact ⟨word, .id name :: pieces, rfl, fun rest _ => endsWord_cons (by decide) _⟩
      | className name =>
          exact ⟨word, .className name :: pieces, rfl,
            fun rest _ => endsWord_cons (by decide) _⟩
      | star => exact ⟨word, .star :: pieces, rfl, fun rest _ => endsWord_cons (by decide) _⟩
      | colon => exact ⟨word, .colon :: pieces, rfl, fun rest _ => endsWord_cons (by decide) _⟩

theorem Piece.not_isBlank_of_mem_chars (piece : Piece) :
    ∀ c ∈ piece.chars, isBlank c = false := by
  have hword (word : Word) : ∀ c ∈ word.chars, isBlank c = false := fun c hc =>
    (classes_of_isWordChar c (word.isWordChar_of_mem_chars c hc)).2.2
  intro c hc
  cases piece with
  | element name => exact hword name c hc
  | id name =>
      rcases List.mem_cons.mp hc with rfl | hname
      · rfl
      · exact hword name c hname
  | className name =>
      rcases List.mem_cons.mp hc with rfl | hname
      · rfl
      · exact hword name c hname
  | star =>
      rw [List.mem_singleton.mp hc]
      rfl
  | colon =>
      rw [List.mem_singleton.mp hc]
      rfl

/-- The first character of a piece begins no comment and ends no comparison. -/
theorem Piece.exists_chars_eq_cons (piece : Piece) :
    ∃ c more, piece.chars = c :: more ∧ c ≠ '/' ∧ c ≠ '=' := by
  cases piece with
  | element name =>
      refine ⟨name.first, name.rest, rfl, ?_, ?_⟩
      · rintro hslash
        have hfirst := name.isWordStart_first
        rw [hslash] at hfirst
        cases hfirst
      · rintro hequals
        have hfirst := name.isWordStart_first
        rw [hequals] at hfirst
        cases hfirst
  | id name => exact ⟨'#', name.chars, rfl, by decide, by decide⟩
  | className name => exact ⟨'.', name.chars, rfl, by decide, by decide⟩
  | star => exact ⟨'*', [], rfl, by decide, by decide⟩
  | colon => exact ⟨':', [], rfl, by decide, by decide⟩

theorem head?_piecesText_append_ne (hends : EndsSegment rest) :
    (piecesText pieces ++ rest).head? ≠ some '=' := by
  cases pieces with
  | nil =>
      intro hequals
      have hmem := hends '=' hequals
      simp at hmem
  | cons piece pieces =>
      obtain ⟨c, more, hchars, -, hc⟩ := piece.exists_chars_eq_cons
      simpa [piecesText, hchars] using hc

/-- The first token of some pieces, which adds its own text to a selector. -/
theorem exists_lex_piecesText (hends : EndsSegment rest) (piece : Piece)
    (pieces : List Piece) :
    ∃ token text others, text ≠ [] ∧ token.selectorText? = some text ∧
      piecesText (piece :: pieces) = text ++ piecesText others ∧
      lex (piecesText (piece :: pieces) ++ rest) =
        ⟨token, text⟩ :: lex (piecesText others ++ rest) := by
  cases piece with
  | element word =>
      obtain ⟨whole, others, htext, hwhole⟩ := exists_whole_word word pieces
      have hpieces : piecesText (.element word :: pieces) =
          whole.chars ++ piecesText others := htext
      refine ⟨.ident whole.chars, whole.chars, others, List.cons_ne_nil _ _, rfl, hpieces, ?_⟩
      rw [hpieces, List.append_assoc, lex_word whole (hwhole rest hends)]
  | id word =>
      obtain ⟨whole, others, htext, hwhole⟩ := exists_whole_word word pieces
      have hpieces : piecesText (.id word :: pieces) =
          '#' :: whole.chars ++ piecesText others := congrArg ('#' :: ·) htext
      refine ⟨.idHash whole.chars, '#' :: whole.chars, others, List.cons_ne_nil _ _, rfl,
        hpieces, ?_⟩
      rw [hpieces, List.append_assoc, lex_hash whole (hwhole rest hends)]
  | className word =>
      refine ⟨.delim '.', ['.'], .element word :: pieces, List.cons_ne_nil _ _, rfl, rfl, ?_⟩
      simp only [piecesText, List.flatMap_cons, List.append_assoc]
      exact lex_point word _
  | star =>
      refine ⟨.delim '*', ['*'], pieces, List.cons_ne_nil _ _, rfl, rfl, ?_⟩
      exact lex_star (head?_piecesText_append_ne hends)
  | colon =>
      refine ⟨.colon, [':'], pieces, List.cons_ne_nil _ _, rfl, rfl, ?_⟩
      exact lex_mark rfl _

/-- The text of the pieces is collected, whatever tokens it makes up. -/
theorem readSelectors_piecesText (hends : EndsSegment rest)
    (hread : ∀ mark, readSelectors (selector ++ piecesText pieces) mark (lex rest) = result)
    (mark : List Lexeme) :
    readSelectors selector mark (lex (piecesText pieces ++ rest)) = result := by
  -- The induction is on the text, since a token may end inside of the pieces.
  induction hlength : (piecesText pieces).length using Nat.strong_induction_on
    generalizing pieces selector mark with
  | _ length ih =>
      cases pieces with
      | nil => simpa [piecesText] using hread mark
      | cons piece pieces =>
          obtain ⟨token, text, others, htext, hselector, hpieces, hlex⟩ :=
            exists_lex_piecesText hends piece pieces
          have hshorter : (piecesText others).length < length := by
            have hpositive := List.length_pos_iff.mpr htext
            rw [hpieces, List.length_append] at hlength
            omega
          rw [hlex, readSelectors_of_selectorText? hselector]
          rw [hpieces, ← List.append_assoc] at hread
          exact ih _ hshorter hread _ rfl

end Pieces

/-! ## Segments -/

section Segments

variable {result : Except Refusal (List String × List Lexeme)}
variable {selector rest text : List Char} {pieces : List Piece} {segments : List (List Piece)}

theorem not_isBlank_of_mem_piecesText {c : Char} (hc : c ∈ piecesText pieces) :
    isBlank c = false := by
  obtain ⟨piece, -, hmem⟩ := List.mem_flatMap.mp hc
  exact piece.not_isBlank_of_mem_chars c hmem

theorem exists_piecesText_eq_cons (hne : pieces ≠ []) :
    ∃ c more, piecesText pieces = c :: more ∧ isBlank c = false ∧ c ≠ '/' := by
  obtain ⟨piece, others, rfl⟩ := List.exists_cons_of_ne_nil hne
  obtain ⟨c, more, hchars, hslash, -⟩ := piece.exists_chars_eq_cons
  have hcons : piecesText (piece :: others) = c :: (more ++ piecesText others) := by
    rw [piecesText, List.flatMap_cons, hchars]
    rfl
  refine ⟨c, _, hcons, ?_, hslash⟩
  apply not_isBlank_of_mem_piecesText
  rw [hcons]
  exact List.mem_cons_self

theorem segmentsText_singleton (pieces : List Piece) :
    segmentsText [pieces] = piecesText pieces := by
  rw [segmentsText, List.map_singleton, List.intercalate_singleton]

theorem segmentsText_cons (hne : segments ≠ []) (pieces : List Piece) :
    segmentsText (pieces :: segments) = piecesText pieces ++ ' ' :: segmentsText segments := by
  obtain ⟨next, others, rfl⟩ := List.exists_cons_of_ne_nil hne
  rw [segmentsText, List.map_cons, List.map_cons, List.intercalate_cons_cons,
    List.append_assoc]
  rfl

theorem exists_segmentsText_eq_cons (hne : segments ≠ []) (hnil : [] ∉ segments) :
    ∃ c more, segmentsText segments = c :: more ∧ isBlank c = false ∧ c ≠ '/' := by
  obtain ⟨pieces, others, rfl⟩ := List.exists_cons_of_ne_nil hne
  rw [List.mem_cons, not_or] at hnil
  obtain ⟨c, more, hpieces, hc⟩ := exists_piecesText_eq_cons (Ne.symm hnil.1)
  by_cases hothers : others = []
  · subst hothers
    exact ⟨c, more, by rw [segmentsText_singleton, hpieces], hc⟩
  · exact ⟨c, _, by rw [segmentsText_cons hothers, hpieces, List.cons_append], hc⟩

theorem not_isBlank_of_getLast?_segmentsText (hnil : [] ∉ segments) :
    ∀ c ∈ (segmentsText segments).getLast?, isBlank c = false := by
  induction segments with
  | nil =>
      intro c hc
      cases hc
  | cons pieces segments ih =>
      rw [List.mem_cons, not_or] at hnil
      intro c hc
      by_cases hsegments : segments = []
      · subst hsegments
        rw [segmentsText_singleton] at hc
        exact not_isBlank_of_mem_piecesText (List.mem_of_getLast? hc)
      · obtain ⟨first, more, htext, -⟩ := exists_segmentsText_eq_cons hsegments hnil.2
        apply ih hnil.2 c
        rwa [segmentsText_cons hsegments, List.append_cons,
          List.getLast?_append_of_ne_nil _ (by simp [htext])] at hc

theorem lex_gap {c : Char} (hblank : isBlank c = false) (rest : List Char) :
    lex (' ' :: c :: rest) = ⟨.whitespace, [' ']⟩ :: lex (c :: rest) := by
  have hspace := not_isSpace_of_not_isBlank hblank
  rw [lex_space rfl, List.takeWhile_cons_of_neg hspace, List.dropWhile_cons_of_neg hspace]

theorem addGap_append_piecesText (hne : pieces ≠ []) (selector : List Char) :
    addGap (selector ++ piecesText pieces) = selector ++ piecesText pieces ++ [' '] := by
  obtain ⟨c, more, hpieces, -⟩ := exists_piecesText_eq_cons hne
  have hlast : (selector ++ piecesText pieces).getLast? ≠ some ' ' := by
    intro hspace
    rw [List.getLast?_append_of_ne_nil _ (by simp [hpieces])] at hspace
    have hblank := not_isBlank_of_mem_piecesText (List.mem_of_getLast? hspace)
    cases hblank
  rw [addGap, if_neg]
  rw [not_or]
  exact ⟨by simp [hpieces], hlast⟩

theorem readSelectors_segmentsText (hne : segments ≠ []) (hnil : [] ∉ segments)
    (hends : EndsSegment rest)
    (hread : ∀ mark,
      readSelectors (selector ++ segmentsText segments) mark (lex rest) = result)
    (mark : List Lexeme) :
    readSelectors selector mark (lex (segmentsText segments ++ rest)) = result := by
  induction segments generalizing selector mark with
  | nil => exact absurd rfl hne
  | cons pieces segments ih =>
      rw [List.mem_cons, not_or] at hnil
      by_cases hsegments : segments = []
      · subst hsegments
        rw [segmentsText_singleton] at hread ⊢
        exact readSelectors_piecesText hends hread mark
      · obtain ⟨c, more, htext, hblank, -⟩ := exists_segmentsText_eq_cons hsegments hnil.2
        rw [segmentsText_cons hsegments] at hread ⊢
        rw [List.append_assoc, List.cons_append]
        apply readSelectors_piecesText (endsSegment_cons (by decide) _)
        intro mark
        have hgap : lex (' ' :: (segmentsText segments ++ rest)) =
            ⟨.whitespace, [' ']⟩ :: lex (segmentsText segments ++ rest) := by
          rw [htext]
          exact lex_gap hblank _
        have hstep : readSelectors (selector ++ piecesText pieces) mark
            (⟨.whitespace, [' ']⟩ :: lex (segmentsText segments ++ rest)) =
            readSelectors (addGap (selector ++ piecesText pieces))
              (lex (segmentsText segments ++ rest)) (lex (segmentsText segments ++ rest)) :=
          rfl
        rw [hgap, hstep, addGap_append_piecesText (Ne.symm hnil.1)]
        apply ih hsegments hnil.2
        simpa using hread

end Segments

/-! ## Selectors -/

section Selectors

variable {text : List Char} {selector : String} {selectors : List String}

theorem trimBlank_eq_self (hhead : ∀ c ∈ text.head?, isBlank c = false)
    (hlast : ∀ c ∈ text.getLast?, isBlank c = false) : trimBlank text = text := by
  have hdrop (text : List Char) (hhead : ∀ c ∈ text.head?, isBlank c = false) :
      text.dropWhile isBlank = text := by
    cases text with
    | nil => rfl
    | cons c text => exact List.dropWhile_cons_of_neg (by simp [hhead c rfl])
  rw [trimBlank, hdrop text hhead, hdrop, List.reverse_reverse]
  rw [List.head?_reverse]
  exact hlast

theorem closeSelector_of_isPlain (hplain : IsPlainSelector selector) (mark : List Lexeme) :
    closeSelector selector.toList mark = .ok selector := by
  obtain ⟨segments, hne, hnil, htext⟩ := hplain
  obtain ⟨c, more, hcons, hblank, -⟩ := exists_segmentsText_eq_cons hne hnil
  have htrim : trimBlank selector.toList = selector.toList := by
    rw [htext]
    apply trimBlank_eq_self _ (not_isBlank_of_getLast?_segmentsText hnil)
    rw [hcons]
    rintro _ ⟨rfl⟩
    exact hblank
  rw [closeSelector, htrim, if_neg (by simp [htext, hcons]), String.ofList_toList]

theorem readSelectors_of_isPlain {result : Except Refusal (List String × List Lexeme)}
    {behind : List Char} (hplain : IsPlainSelector selector) (hends : EndsSegment behind)
    (hread : ∀ mark, readSelectors selector.toList mark (lex behind) = result)
    (mark : List Lexeme) :
    readSelectors [] mark (lex (selector.toList ++ behind)) = result := by
  obtain ⟨segments, hne, hnil, htext⟩ := hplain
  rw [htext] at hread ⊢
  exact readSelectors_segmentsText hne hnil hends hread mark

theorem readSelectors_written (hne : selectors ≠ [])
    (hplain : ∀ selector ∈ selectors, IsPlainSelector selector) (rest : List Char)
    (mark : List Lexeme) :
    readSelectors [] mark
        (lex ([','].intercalate (selectors.map String.toList) ++ '\x7b' :: rest)) =
      .ok (selectors, lex ('\x7b' :: rest)) := by
  have hopening : (Token.opening .curly).mark? = some '\x7b' := rfl
  have hcomma : Token.comma.mark? = some ',' := rfl
  induction selectors generalizing mark with
  | nil => exact absurd rfl hne
  | cons selector selectors ih =>
      rw [List.forall_mem_cons] at hplain
      cases selectors with
      | nil =>
          rw [List.map_singleton, List.intercalate_singleton]
          apply readSelectors_of_isPlain hplain.1 (endsSegment_cons (by decide) rest)
          intro mark
          rw [lex_mark hopening, readSelectors_opening, closeSelector_of_isPlain hplain.1]
          rfl
      | cons next others =>
          rw [List.map_cons, List.map_cons, List.intercalate_cons_cons, ← List.map_cons,
            List.append_assoc, List.append_assoc, List.singleton_append]
          apply readSelectors_of_isPlain hplain.1 (endsSegment_cons (by decide) _)
          intro mark
          rw [lex_mark hcomma]
          exact readSelectors_comma (closeSelector_of_isPlain hplain.1 mark)
            (ih (List.cons_ne_nil _ _) hplain.2 _)

end Selectors

/-! ## Declarations -/

section Declarations

variable {declaration : Declaration} {declarations others : List Declaration}
variable {rest : List Char} {left : List Lexeme}

theorem lex_declaration_written (hplain : declaration.IsPlain) (rest : List Char) :
    lex (declaration.written ++ rest) =
      ⟨.ident declaration.name.toList, declaration.name.toList⟩ :: ⟨.colon, [':']⟩ ::
        ⟨.quoted declaration.value.toList, writeString declaration.value.toList⟩ ::
        ⟨.semicolon, [';']⟩ :: lex rest := by
  have hcolon : Token.colon.mark? = some ':' := rfl
  have hsemicolon : Token.semicolon.mark? = some ';' := rfl
  obtain ⟨word, hname⟩ := hplain.name_eq
  have htext : declaration.written ++ rest =
      word.chars ++ ':' :: (writeString declaration.value.toList ++ ';' :: rest) := by
    rw [Declaration.written, hname]
    simp only [List.append_assoc, List.cons_append, List.nil_append]
  rw [htext, lex_word word (endsWord_cons (by decide) _), lex_mark hcolon,
    lex_writeString hplain.null_not_mem, lex_mark hsemicolon, hname]

theorem readComponents_quoted (property text source : List Char) (rest : List Lexeme) :
    readComponents property false (⟨.quoted text, source⟩ :: ⟨.semicolon, [';']⟩ :: rest) =
      .ok ([⟨false, [⟨.quoted text, source⟩]⟩], ⟨.semicolon, [';']⟩ :: rest) := by
  simp [readComponents, Token.endsValue, Token.isStray, Token.isGap, Token.opens?,
    Except.map]

theorem valueText_quoted (text source : List Char) :
    valueText [⟨false, [⟨.quoted text, source⟩]⟩] = text :=
  rfl

theorem readDeclarations_cons_written (hplain : declaration.IsPlain)
    (hothers : readDeclarations (lex rest) = .ok (others, left)) :
    readDeclarations (lex (declaration.written ++ rest)) = .ok (declaration :: others, left) := by
  have hvalue : declaration.value.toList ≠ [] := by
    simpa using hplain.value_ne_empty
  have hbehind : readDeclarations (⟨.semicolon, [';']⟩ :: lex rest) = .ok (others, left) := by
    rw [readDeclarations_of_semicolon rfl, hothers]
  rw [lex_declaration_written hplain, readDeclarations_of_ident rfl rfl
    (readComponents_quoted _ _ _ _) (by rwa [valueText_quoted]) hbehind, valueText_quoted,
    Declaration.ofChars, String.ofList_toList, String.ofList_toList]

theorem readDeclarations_written (hplain : ∀ declaration ∈ declarations, declaration.IsPlain)
    (rest : List Char) :
    readDeclarations (lex (declarations.flatMap Declaration.written ++ '\x7d' :: rest)) =
      .ok (declarations, lex ('\x7d' :: rest)) := by
  have hclosing : (Token.closing .curly).mark? = some '\x7d' := rfl
  induction declarations with
  | nil =>
      rw [List.flatMap_nil, List.nil_append, lex_mark hclosing]
      exact readDeclarations_of_closing rfl
  | cons declaration declarations ih =>
      rw [List.forall_mem_cons] at hplain
      rw [List.flatMap_cons, List.append_assoc]
      exact readDeclarations_cons_written hplain.1 (ih hplain.2)

end Declarations

/-! ## Rules -/

section Rules

variable {rule : Rule} {rules : List Rule}

theorem dropGaps_lex_of_not_isBlank {c : Char} (hblank : isBlank c = false) (hslash : c ≠ '/')
    (rest : List Char) : dropGaps (lex (c :: rest)) = lex (c :: rest) := by
  rw [lex_cons, dropGaps_cons_of_not_isGap]
  intro hgap
  rcases forms_of_isGap_read hgap with hspace | ⟨body, hcomment, -⟩
  · exact not_isSpace_of_not_isBlank hblank hspace
  · exact hslash hcomment

theorem Rule.IsPlain.exists_written_eq_cons (hplain : rule.IsPlain) :
    ∃ c more, rule.written = c :: more ∧ isBlank c = false ∧ c ≠ '/' := by
  obtain ⟨selector, others, hselectors⟩ := List.exists_cons_of_ne_nil hplain.selectors_ne_nil
  have hselector : IsPlainSelector selector := by
    apply hplain.selectors
    rw [hselectors]
    exact List.mem_cons_self
  obtain ⟨segments, hne, hnil, htext⟩ := hselector
  obtain ⟨c, more, hcons, hc⟩ := exists_segmentsText_eq_cons hne hnil
  have hfirst : selector.toList <+: [','].intercalate (rule.selectors.map String.toList) := by
    rw [hselectors]
    cases others with
    | nil => exact ⟨[], by rw [List.append_nil, List.map_singleton, List.intercalate_singleton]⟩
    | cons next others =>
        rw [List.map_cons, List.map_cons, List.intercalate_cons_cons, List.append_assoc]
        exact List.prefix_append _ _
  obtain ⟨behind, hbehind⟩ := hfirst
  refine ⟨c, more ++ (behind ++ ('\x7b' :: rule.declarations.flatMap Declaration.written ++
    ['\x7d'])), ?_, hc⟩
  rw [Rule.written, ← hbehind, htext, hcons]
  simp only [List.append_assoc, List.cons_append]

theorem readRule_written (hplain : rule.IsPlain) (rest : List Char) :
    readRule (lex (rule.written ++ rest)) = .ok (rule, lex rest) := by
  have hopening : (Token.opening .curly).mark? = some '\x7b' := rfl
  have hclosing : (Token.closing .curly).mark? = some '\x7d' := rfl
  let behind := rule.declarations.flatMap Declaration.written ++ '\x7d' :: rest
  have htext : rule.written ++ rest =
      [','].intercalate (rule.selectors.map String.toList) ++ '\x7b' :: behind := by
    rw [Rule.written]
    simp only [List.append_assoc, List.cons_append, List.nil_append, behind]
  have hselectors := readSelectors_written hplain.selectors_ne_nil hplain.selectors behind
    (lex (rule.written ++ rest))
  have hdeclarations := readDeclarations_written hplain.declarations rest
  rw [lex_mark hopening, ← htext] at hselectors
  rw [lex_mark hclosing] at hdeclarations
  exact readRule_of_block hselectors hdeclarations

theorem readRules_written (hplain : ∀ rule ∈ rules, rule.IsPlain) :
    readRules (lex (rules.flatMap Rule.written)) = .ok rules := by
  induction rules with
  | nil => exact readRules_of_gaps (by rw [List.flatMap_nil, lex_nil]; rfl)
  | cons rule rules ih =>
      rw [List.forall_mem_cons] at hplain
      obtain ⟨c, more, htext, hblank, hslash⟩ := hplain.1.exists_written_eq_cons
      have hgaps : dropGaps (lex (rule.written ++ rules.flatMap Rule.written)) =
          lex (rule.written ++ rules.flatMap Rule.written) := by
        rw [htext]
        exact dropGaps_lex_of_not_isBlank hblank hslash _
      rw [List.flatMap_cons, readRules_of_rule hgaps (readRule_written hplain.1 _),
        ih hplain.2]
      rfl

/-- Whatever the values hold, they come back as they were. -/
theorem readStylesheet_writeStylesheet (hplain : ∀ rule ∈ rules, rule.IsPlain) :
    readStylesheet (writeStylesheet rules) = .ok rules := by
  rw [readStylesheet_eq_ok_iff, writeStylesheet, String.toList_ofList]
  exact readRules_written hplain

end Rules

/-- A value with all that could end it, and selectors of every kind of piece. -/
def plainRules : List Rule :=
  [⟨["Menu::Item.wide", "* #top"], [⟨"Label", "\"\x7d;\n\\/*"⟩]⟩, ⟨["Menu"], []⟩]

theorem isPlain_plainRules : ∀ rule ∈ plainRules, rule.IsPlain := by
  let menu : Word := ⟨'M', ['e', 'n', 'u'], rfl, rfl⟩
  let item : Word := ⟨'I', ['t', 'e', 'm'], rfl, rfl⟩
  let wide : Word := ⟨'w', ['i', 'd', 'e'], rfl, rfl⟩
  let top : Word := ⟨'t', ['o', 'p'], rfl, rfl⟩
  let label : Word := ⟨'L', ['a', 'b', 'e', 'l'], rfl, rfl⟩
  have hitem : IsPlainSelector "Menu::Item.wide" :=
    ⟨[[.element menu, .colon, .colon, .element item, .className wide]],
      by simp, by simp, rfl⟩
  have htop : IsPlainSelector "* #top" := ⟨[[.star], [.id top]], by simp, by simp, rfl⟩
  have hmenu : IsPlainSelector "Menu" := ⟨[[.element menu]], by simp, by simp, rfl⟩
  have hlabel : Declaration.IsPlain ⟨"Label", "\"\x7d;\n\\/*"⟩ :=
    ⟨⟨label, rfl⟩, by decide, by decide⟩
  have hfirst : Rule.IsPlain ⟨["Menu::Item.wide", "* #top"], [⟨"Label", "\"\x7d;\n\\/*"⟩]⟩ :=
    ⟨by simp, by simp [hitem, htop], by simp [hlabel]⟩
  have hsecond : Rule.IsPlain ⟨["Menu"], []⟩ := ⟨by simp, by simp [hmenu], by simp⟩
  simp [plainRules, hfirst, hsecond]

theorem readStylesheet_writeStylesheet_plainRules :
    (∀ rule ∈ plainRules, rule.IsPlain) ∧
      readStylesheet (writeStylesheet plainRules) = .ok plainRules :=
  ⟨isPlain_plainRules, readStylesheet_writeStylesheet isPlain_plainRules⟩

end ThemeSheet

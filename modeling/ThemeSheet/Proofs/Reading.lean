import ThemeSheet.Proofs.Words
import ThemeSheet.Rule.Outcome
import ThemeSheet.Rule.Stylesheet

/-!
# What is read from a stylesheet

A selector is trimmed before it is accepted, and it must not be empty then.
Trimming and splitting go by the same blanks, so each selector of a rule that
was read has a segment to put the declarations on.
-/

namespace ThemeSheet

/-! ## The selectors of a rule -/

theorem segments_ne_nil_of_closeSelector
    {selector : List Char} {mark : List Lexeme} {closed : String}
    (hclose : closeSelector selector mark = .ok closed) :
    segments closed ≠ [] := by
  unfold closeSelector at hclose
  split at hclose
  next => simp [refuse] at hclose
  next hne =>
    rw [Except.ok.injEq] at hclose
    rw [← hclose]
    apply segments_ofList_trimBlank_ne_nil
    simpa using hne

theorem segments_ne_nil_of_readSelectors
    {selector : List Char} {mark lexemes left : List Lexeme}
    {selectors : List String}
    (hread : readSelectors selector mark lexemes = .ok (selectors, left)) :
    ∀ closed ∈ selectors, segments closed ≠ [] := by
  fun_induction readSelectors selector mark lexemes
    generalizing selectors left with
  | case1 selector mark =>
      obtain ⟨last, hclose, heq⟩ := exists_of_map_eq_ok hread
      rw [Prod.mk.injEq] at heq
      rw [← heq.1]
      simpa using segments_ne_nil_of_closeSelector hclose
  | case2 selector mark lexeme rest hvalue =>
      obtain ⟨last, hclose, heq⟩ := exists_of_map_eq_ok hread
      rw [Prod.mk.injEq] at heq
      rw [← heq.1]
      simpa using segments_ne_nil_of_closeSelector hclose
  | case3 selector mark lexeme rest hvalue ih => exact ih hread
  | case4 selector mark lexeme rest hvalue ih => exact ih hread
  | case5 selector mark lexeme rest hvalue ih =>
      obtain ⟨closed, hclose, hothers⟩ := exists_of_bind_eq_ok hread
      obtain ⟨⟨others, after⟩, hrest, heq⟩ := exists_of_bind_eq_ok hothers
      simp only [pure, Except.pure, Except.ok.injEq, Prod.mk.injEq] at heq
      rw [← heq.1, List.forall_mem_cons]
      exact ⟨segments_ne_nil_of_closeSelector hclose, ih hrest⟩
  | case6 selector mark lexeme rest _ _ _ _ text htext ih => exact ih hread
  | case7 => cases hread

/-- The block of a rule that was read, between its braces. -/
theorem exists_block_of_readRule
    {lexemes left : List Lexeme} {rule : Rule}
    (hread : readRule lexemes = .ok (rule, left)) :
    ∃ brace body closing,
      readSelectors [] lexemes lexemes = .ok (rule.selectors, brace :: body) ∧
      readDeclarations body = .ok (rule.declarations, closing :: left) := by
  obtain ⟨⟨selectors, block⟩, hselectors, hblock⟩ := exists_of_bind_eq_ok hread
  cases block with
  | nil => cases hblock
  | cons brace body =>
      obtain ⟨⟨declarations, after⟩, hdeclarations, hleft⟩ := exists_of_bind_eq_ok hblock
      cases after with
      | nil => cases hleft
      | cons closing after =>
          cases hleft
          exact ⟨brace, body, closing, hselectors, hdeclarations⟩

theorem segments_ne_nil_of_readRules
    {lexemes : List Lexeme} {rules : List Rule}
    (hread : readRules lexemes = .ok rules) :
    ∀ rule ∈ rules, ∀ selector ∈ rule.selectors, segments selector ≠ [] := by
  fun_induction readRules lexemes generalizing rules with
  | case1 =>
      rw [Except.ok.injEq] at hread
      simp [← hread]
  | case2 => cases hread
  | case3 lexemes lexeme rest hgaps rule left hrule ih =>
      obtain ⟨others, hothers, heq⟩ := exists_of_map_eq_ok hread
      obtain ⟨brace, body, closing, hselectors, -⟩ := exists_block_of_readRule hrule
      rw [← heq, List.forall_mem_cons]
      exact ⟨segments_ne_nil_of_readSelectors hselectors, ih hothers⟩

theorem readStylesheet_eq_ok_iff {css : String} {rules : List Rule} :
    readStylesheet css = .ok rules ↔ readRules (lex css.toList) = .ok rules := by
  unfold readStylesheet
  cases readRules (lex css.toList) with
  | error refusal =>
      constructor
      · intro hread
        cases hread
      · intro hread
        cases hread
  | ok read =>
      constructor
      · intro hread
        cases hread
        rfl
      · intro hread
        cases hread
        rfl

/-- No rule of a stylesheet has a selector without segments. -/
theorem segments_ne_nil_of_readStylesheet {css : String} {rules : List Rule}
    (hread : readStylesheet css = .ok rules) :
    ∀ rule ∈ rules, ∀ selector ∈ rule.selectors, segments selector ≠ [] :=
  segments_ne_nil_of_readRules (readStylesheet_eq_ok_iff.mp hread)

/-! ## One step of a reader -/

theorem readSelectors_ident (selector : List Char) (mark rest : List Lexeme)
    (name source : List Char) :
    readSelectors selector mark (⟨.ident name, source⟩ :: rest) =
      readSelectors (selector ++ name) rest rest :=
  rfl

theorem readSelectors_opening (selector : List Char) (mark rest : List Lexeme)
    (source : List Char) :
    readSelectors selector mark (⟨.opening .curly, source⟩ :: rest) =
      (closeSelector selector (⟨.opening .curly, source⟩ :: rest)).map
        (fun last => ([last], ⟨.opening .curly, source⟩ :: rest)) :=
  rfl

theorem readSelectors_comma {selector : List Char} {mark rest left : List Lexeme}
    {source : List Char} {closed : String} {others : List String}
    (hclose : closeSelector selector mark = .ok closed)
    (hothers : readSelectors [] rest rest = .ok (others, left)) :
    readSelectors selector mark (⟨.comma, source⟩ :: rest) = .ok (closed :: others, left) := by
  rw [readSelectors, hclose]
  simp only [bind, Except.bind, hothers]
  rfl

theorem readDeclarations_of_closing
    {lexemes rest : List Lexeme} {source : List Char}
    (hbody : dropGaps lexemes = ⟨.closing .curly, source⟩ :: rest) :
    readDeclarations lexemes = .ok ([], ⟨.closing .curly, source⟩ :: rest) := by
  unfold readDeclarations
  split
  next hnil =>
    rw [hnil] at hbody
    cases hbody
  next lexeme more hcons =>
    rw [hbody, List.cons.injEq] at hcons
    obtain ⟨rfl, rfl⟩ := hcons
    rfl

/-- What is read from a declaration whose value is read. -/
theorem readDeclarations_of_components
    {lexemes rest value after : List Lexeme} {name source mark : List Char}
    {components : List Component}
    (hbody : dropGaps lexemes = ⟨.ident name, source⟩ :: rest)
    (hcolon : dropGaps rest = ⟨.colon, mark⟩ :: value)
    (hvalue : readComponents name false value = .ok (components, after)) :
    readDeclarations lexemes =
      if (valueText components).isEmpty then
        refuse (.missingValue name) (⟨.ident name, source⟩ :: rest)
      else
        (readDeclarations after).map (fun (others, left) =>
          (Declaration.ofChars name (valueText components) :: others, left)) := by
  rw [readDeclarations]
  split
  next hnil =>
    rw [hnil] at hbody
    cases hbody
  next lexeme more hcons =>
    rw [hbody, List.cons.injEq] at hcons
    obtain ⟨rfl, rfl⟩ := hcons
    simp only
    split
    next found behind hfound =>
      rw [hcolon, List.cons.injEq] at hfound
      obtain ⟨-, rfl⟩ := hfound
      split
      next refusal hrefused =>
        rw [hvalue] at hrefused
        cases hrefused
      next found rest hfound =>
        rw [hvalue, Except.ok.injEq, Prod.mk.injEq] at hfound
        obtain ⟨rfl, rfl⟩ := hfound
        rfl
    next hnot => exact (hnot mark value hcolon).elim

theorem readDeclarations_of_ident
    {lexemes rest value after left : List Lexeme} {name source mark : List Char}
    {components : List Component} {others : List Declaration}
    (hbody : dropGaps lexemes = ⟨.ident name, source⟩ :: rest)
    (hcolon : dropGaps rest = ⟨.colon, mark⟩ :: value)
    (hvalue : readComponents name false value = .ok (components, after))
    (htext : valueText components ≠ [])
    (hothers : readDeclarations after = .ok (others, left)) :
    readDeclarations lexemes =
      .ok (Declaration.ofChars name (valueText components) :: others, left) := by
  rw [readDeclarations_of_components hbody hcolon hvalue, if_neg (by simpa using htext),
    hothers]
  rfl

theorem readRule_of_block
    {lexemes body left : List Lexeme} {brace closing : Lexeme}
    {selectors : List String} {declarations : List Declaration}
    (hselectors : readSelectors [] lexemes lexemes = .ok (selectors, brace :: body))
    (hdeclarations : readDeclarations body = .ok (declarations, closing :: left)) :
    readRule lexemes = .ok (⟨selectors, declarations⟩, left) := by
  simp only [readRule, bind, Except.bind, hselectors, hdeclarations]
  rfl

theorem readRules_of_gaps {lexemes : List Lexeme} (hgaps : dropGaps lexemes = []) :
    readRules lexemes = .ok [] := by
  rw [readRules]
  split
  next => rfl
  next hcons =>
    rw [hgaps] at hcons
    cases hcons

theorem readRules_of_block {lexemes block : List Lexeme}
    (hgaps : dropGaps lexemes = block) (hblock : block ≠ []) :
    readRules lexemes = readRule block >>= fun (rule, left) =>
      (readRules left).map (rule :: ·) := by
  rw [readRules]
  split
  next hnil => exact absurd (hgaps.symm.trans hnil) hblock
  next first more hcons =>
    rw [← hgaps, hcons]
    split
    next refusal hrefused => rw [hrefused]; rfl
    next rule left hrule => rw [hrule]; rfl

theorem readRules_of_rule {lexemes block left : List Lexeme} {rule : Rule}
    (hgaps : dropGaps lexemes = block) (hrule : readRule block = .ok (rule, left)) :
    readRules lexemes = (readRules left).map (rule :: ·) := by
  rw [readRules_of_block hgaps, hrule]
  · rfl
  · rintro rfl
    cases hrule

/-- The gaps in front of a stylesheet have no part in its rules. -/
theorem readRules_congr {lexemes others : List Lexeme}
    (hgaps : dropGaps lexemes = dropGaps others) :
    readRules lexemes = readRules others := by
  by_cases hblock : dropGaps others = []
  · rw [readRules_of_gaps hblock, readRules_of_gaps (hgaps.trans hblock)]
  · rw [readRules_of_block rfl hblock, readRules_of_block hgaps hblock]

/-! ## Rules of words -/

/-- The tokens of a rule with one selector and one declaration, all words. -/
def plainRule (selector name value : List Char) : List Lexeme :=
  [⟨.ident selector, selector⟩, ⟨.opening .curly, ['\x7b']⟩, ⟨.ident name, name⟩,
    ⟨.colon, [':']⟩, ⟨.ident value, value⟩, ⟨.closing .curly, ['\x7d']⟩]

theorem readRule_plainRule_append
    {selector name value : List Char} {rest : List Lexeme}
    (hselector : trimBlank selector ≠ []) (hvalue : value ≠ []) :
    readRule (plainRule selector name value ++ rest) =
      .ok (⟨[String.ofList (trimBlank selector)], [Declaration.ofChars name value]⟩,
        rest) := by
  have hend : readDeclarations (⟨.closing .curly, ['\x7d']⟩ :: rest) =
      .ok ([], ⟨.closing .curly, ['\x7d']⟩ :: rest) :=
    readDeclarations_of_closing rfl
  have hcomponents : readComponents name false
      (⟨.ident value, value⟩ :: ⟨.closing .curly, ['\x7d']⟩ :: rest) =
      .ok ([⟨false, [⟨.ident value, value⟩]⟩],
        ⟨.closing .curly, ['\x7d']⟩ :: rest) := by
    simp [readComponents, Token.endsValue, Token.isStray, Token.isGap,
      Token.opens?, Except.map]
  have htext : valueText [⟨false, [⟨.ident value, value⟩]⟩] = value := by
    simp [valueText, Component.quoted?, Component.source, Span.sources]
  have hdeclarations : readDeclarations
      (⟨.ident name, name⟩ :: ⟨.colon, [':']⟩ :: ⟨.ident value, value⟩ ::
        ⟨.closing .curly, ['\x7d']⟩ :: rest) =
      .ok ([Declaration.ofChars name value], ⟨.closing .curly, ['\x7d']⟩ :: rest) := by
    rw [readDeclarations_of_ident rfl rfl hcomponents (by rwa [htext]) hend, htext]
  have hselectors : readSelectors [] (plainRule selector name value ++ rest)
      (plainRule selector name value ++ rest) =
      .ok ([String.ofList (trimBlank selector)],
        (plainRule selector name value ++ rest).tail) := by
    rw [plainRule, List.cons_append, readSelectors_ident, List.cons_append,
      readSelectors_opening, List.nil_append, closeSelector,
      if_neg (by simpa using hselector)]
    rfl
  exact readRule_of_block hselectors hdeclarations

theorem readRules_plainRule_append
    {selector name value : List Char} {rest : List Lexeme} {others : List Rule}
    (hselector : trimBlank selector ≠ []) (hvalue : value ≠ [])
    (hothers : readRules rest = .ok others) :
    readRules (plainRule selector name value ++ rest) =
      .ok (⟨[String.ofList (trimBlank selector)],
        [Declaration.ofChars name value]⟩ :: others) := by
  have hgaps : dropGaps (plainRule selector name value ++ rest) =
      plainRule selector name value ++ rest :=
    rfl
  rw [readRules_of_rule hgaps (readRule_plainRule_append hselector hvalue), hothers]
  rfl

end ThemeSheet

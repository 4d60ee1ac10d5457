import ThemeSheet.Proofs.Faults
import ThemeSheet.Proofs.ValueTokens

/-!
# Missing values

A value is missing if its text is empty.  That is so where nothing but gaps stands between the
colon and the end of the declaration, and also where a string without content stands there.
Other values have the source of a token in their text, so they are never missing.
-/

namespace ThemeSheet

/-! ## Rows without a text -/

/-- Whether the tokens of a value are a string without content, with gaps around it. -/
def IsEmptyString (row : List Lexeme) : Prop :=
  ∃ before string behind, row = before ++ string :: behind ∧ string.value = .quoted [] ∧
    (∀ gap ∈ before, gap.value.isGap) ∧ ∀ gap ∈ behind, gap.value.isGap

section Rows

variable {text : List Char} {row back : List Lexeme} {components : List Component}
variable {item : Item}

theorem Item.source_ne_nil (hlex : lex text = item.lexemes ++ back) : item.source ≠ [] := by
  obtain ⟨c, rest, hsource, -⟩ := item.exists_head hlex
  rw [hsource]
  exact List.cons_ne_nil c rest

theorem exists_of_quoted?_eq_some {content : List Char} (hquoted : item.quoted? = some content) :
    ∃ string, item.lexemes = [string] ∧ string.value = .quoted content := by
  unfold Item.quoted? at hquoted
  split at hquoted
  next found source hlexemes =>
    cases hquoted
    exact ⟨_, hlexemes, rfl⟩
  next => cases hquoted

/-- A layout without a text has no component, or a string without content as its only one. -/
theorem ValueLayout.forms_of_text_eq_nil (layout : ValueLayout row)
    (hlex : lex text = row ++ back) (htext : layout.text = []) :
    (∀ gap ∈ row, gap.value.isGap) ∨ IsEmptyString row := by
  obtain ⟨items, behind, hbehind, rfl⟩ := layout
  rcases items with _ | ⟨item, items⟩
  · exact .inl hbehind
  · have hitem : item.source ≠ [] := by
      rw [List.flatMap_cons, Item.row, List.append_assoc, List.append_assoc,
        List.append_assoc] at hlex
      exact item.source_ne_nil (lex_sources hlex)
    rcases items with _ | ⟨second, others⟩
    · right
      cases hquoted : item.quoted? with
      | none =>
          simp only [ValueLayout.text, ValueLayout.quoted?, hquoted, Option.getD_none,
            joinedText, List.flatMap_nil, List.append_nil] at htext
          exact absurd htext hitem
      | some content =>
          simp only [ValueLayout.text, ValueLayout.quoted?, hquoted, Option.getD_some] at htext
          subst htext
          obtain ⟨string, hlexemes, hvalue⟩ := exists_of_quoted?_eq_some hquoted
          refine ⟨item.gaps, string, behind, ?_, hvalue, item.isGap, hbehind⟩
          simp [Item.row, hlexemes]
    · simp only [ValueLayout.text, ValueLayout.quoted?, Option.getD_none, joinedText,
        List.append_eq_nil_iff] at htext
      exact absurd htext.1 hitem

theorem ValueRow.forms_of_valueText_eq_nil (hrow : ValueRow false row components)
    (hlex : lex text = row ++ back) (htext : valueText components = []) :
    (∀ gap ∈ row, gap.value.isGap) ∨ IsEmptyString row := by
  obtain ⟨layout⟩ := hrow.nonempty_layout
  rw [hrow.valueText_eq layout] at htext
  exact layout.forms_of_text_eq_nil hlex htext

/-- Gaps are read as no component. -/
theorem valueRow_gaps {spaced : Bool} (hgaps : ∀ gap ∈ row, gap.value.isGap) :
    ValueRow spaced row [] := by
  have hrow : ValueRow spaced (row ++ []) [] := .gaps_append hgaps .nil
  rwa [List.append_nil] at hrow

theorem exists_valueRow_of_forms
    (hforms : (∀ gap ∈ row, gap.value.isGap) ∨ IsEmptyString row) :
    ∃ components, ValueRow false row components ∧ valueText components = [] := by
  rcases hforms with hgaps | ⟨before, ⟨token, source⟩, behind, rfl, hvalue, hbefore, hbehind⟩
  · exact ⟨[], valueRow_gaps hgaps, rfl⟩
  · obtain rfl : token = .quoted [] := hvalue
    have halone : (Token.quoted []).standsAlone := rfl
    exact ⟨_, .gaps_append hbefore (.token halone (valueRow_gaps hbehind)), rfl⟩

end Rows

/-! ## Where a declaration is read -/

/-- Whether some tokens begin with a declaration: a name, a colon and the row of its value, up
to what ends a value or to the end. -/
def BeginsDeclaration (lexemes : List Lexeme) (name : List Char) (row : List Lexeme) : Prop :=
  ∃ first gaps colon behind, lexemes = first :: (gaps ++ colon :: (row ++ behind)) ∧
    first.value = .ident name ∧ (∀ gap ∈ gaps, gap.value.isGap) ∧ colon.value = .colon ∧
    ∀ stop ∈ behind.head?, stop.value.endsValue

/-- Whole declarations in a row, each with a semicolon behind it, and more semicolons. -/
inductive DeclarationRow : List Lexeme → List Declaration → Prop where
  | nil : DeclarationRow [] []
  | semicolon {gaps row : List Lexeme} {mark : Lexeme} {declarations : List Declaration}
      (hgaps : ∀ gap ∈ gaps, gap.value.isGap) (hmark : mark.value = .semicolon)
      (hrow : DeclarationRow row declarations) :
      DeclarationRow (gaps ++ mark :: row) declarations
  | declaration {gaps between value row : List Lexeme} {first colon mark : Lexeme}
      {name : List Char} {components : List Component} {declarations : List Declaration}
      (hgaps : ∀ gap ∈ gaps, gap.value.isGap) (hname : first.value = .ident name)
      (hbetween : ∀ gap ∈ between, gap.value.isGap) (hcolon : colon.value = .colon)
      (hvalue : ValueRow false value components) (htext : valueText components ≠ [])
      (hmark : mark.value = .semicolon) (hrow : DeclarationRow row declarations) :
      DeclarationRow (gaps ++ first :: (between ++ colon :: (value ++ mark :: row)))
        (Declaration.ofChars name (valueText components) :: declarations)

/-- Whether some tokens lead up to a declaration: whole rules, the selectors and the brace of
another rule, and whole declarations of its block. -/
inductive LeadsToDeclaration : List Lexeme → Prop where
  | intro {sheet header block gaps : List Lexeme} {brace : Lexeme} {rules : List Rule}
      {selectors : List String} {declarations : List Declaration}
      (hsheet : RuleRow sheet rules)
      (hheader : readSelectors [] (dropGaps header) (dropGaps header) =
        .ok (selectors, [brace]))
      (hblock : DeclarationRow block declarations) (hgaps : ∀ gap ∈ gaps, gap.value.isGap) :
      LeadsToDeclaration (sheet ++ (header ++ (block ++ gaps)))

section Declarations

variable {lexemes rest gaps row back : List Lexeme} {lexeme : Lexeme} {name : List Char}
variable {declarations : List Declaration} {components : List Component}

/-- What is read from a declaration behind some gaps. -/
theorem readDeclarations_of_value {between value after : List Lexeme} {first colon : Lexeme}
    (hgaps : ∀ gap ∈ gaps, gap.value.isGap) (hname : first.value = .ident name)
    (hbetween : ∀ gap ∈ between, gap.value.isGap) (hcolon : colon.value = .colon)
    (hvalue : ValueRow false value components)
    (hends : ∀ stop ∈ after.head?, stop.value.endsValue) :
    readDeclarations (gaps ++ first :: (between ++ colon :: (value ++ after))) =
      if (valueText components).isEmpty then
        refuse (.missingValue name) (first :: (between ++ colon :: (value ++ after)))
      else
        (readDeclarations after).map (fun (others, left) =>
          (Declaration.ofChars name (valueText components) :: others, left)) := by
  rcases first with ⟨token, source⟩
  rcases colon with ⟨colonToken, mark⟩
  obtain rfl : token = .ident name := hname
  obtain rfl : colonToken = .colon := hcolon
  have hread : readComponents name false (value ++ after) = .ok (components, after) :=
    readComponents_eq_ok_iff.mpr ⟨value, rfl, hvalue, hends⟩
  exact readDeclarations_of_components (dropGaps_append hgaps _) (dropGaps_append hbetween _)
    hread

theorem DeclarationRow.readDeclarations_append (hrow : DeclarationRow row declarations)
    (other : List Lexeme) :
    readDeclarations (row ++ other) =
      (readDeclarations other).map (fun (others, left) => (declarations ++ others, left)) := by
  induction hrow with
  | nil => cases hread : readDeclarations other <;> simp [hread, Except.map]
  | @semicolon gaps row mark declarations hgaps hmark hrow ih =>
      rcases mark with ⟨token, source⟩
      obtain rfl : token = .semicolon := hmark
      rw [List.append_assoc, List.cons_append,
        readDeclarations_of_semicolon (dropGaps_append hgaps _), ih]
  | @declaration gaps between value row first colon mark name components declarations
      hgaps hname hbetween hcolon hvalue htext hmark hrow ih =>
      rcases mark with ⟨token, source⟩
      obtain rfl : token = .semicolon := hmark
      have hlater : readDeclarations (⟨.semicolon, source⟩ :: (row ++ other)) =
          readDeclarations (row ++ other) :=
        readDeclarations_of_semicolon rfl
      have hends : ∀ stop ∈ ((⟨.semicolon, source⟩ : Lexeme) :: (row ++ other)).head?,
          stop.value.endsValue := by
        simp [Token.endsValue]
      simp only [List.append_assoc, List.cons_append]
      rw [readDeclarations_of_value hgaps hname hbetween hcolon hvalue hends,
        if_neg (by simpa using htext), hlater, ih]
      cases readDeclarations other <;> rfl

/-! ## What is read up to a missing value -/

theorem cause_ne_of_readComponents {property : List Char} {spaced : Bool} {refusal : Refusal}
    (hread : readComponents property spaced lexemes = .error refusal) :
    refusal.cause ≠ .missingValue name := by
  fun_induction readComponents property spaced lexemes with
  | case1 | case2 => cases hread
  | case3 spaced lexeme rest hends hstray =>
      cases hread
      simp
  | case4 spaced lexeme rest hends hstray hgap ih => exact ih hread
  | case5 spaced lexeme rest hends hstray hgap hopens ih => exact ih (eq_error_of_map hread)
  | case6 spaced lexeme rest hends hstray hgap bracket hopens hgroup =>
      cases hread
      simp
  | case7 spaced lexeme rest hends hstray hgap bracket hopens group after hgroup ih =>
      exact ih (eq_error_of_map hread)

theorem cause_ne_of_readSelectors {selector : List Char} {mark : List Lexeme}
    {refusal : Refusal} (hread : readSelectors selector mark lexemes = .error refusal) :
    refusal.cause ≠ .missingValue name := by
  fun_induction readSelectors selector mark lexemes with
  | case1 | case2 =>
      rw [eq_of_closeSelector_eq_error (eq_error_of_map hread)]
      simp
  | case3 selector mark lexeme rest hvalue ih | case4 selector mark lexeme rest hvalue ih =>
      exact ih hread
  | case5 selector mark lexeme rest hvalue ih =>
      rcases error_or_of_bind hread with hclose | ⟨closed, -, hothers⟩
      · rw [eq_of_closeSelector_eq_error hclose]
        simp
      · rcases error_or_of_bind hothers with hrest | ⟨read, -, hpure⟩
        · exact ih hrest
        · cases hpure
  | case6 selector mark lexeme rest _ _ _ _ text htext ih => exact ih hread
  | case7 selector mark lexeme rest _ _ _ _ htext =>
      cases hread
      simp

/-- Whether some tokens begin with a declaration whose value has no text. -/
def MissesValue (lexemes : List Lexeme) (name : List Char) : Prop :=
  ∃ row components, BeginsDeclaration lexemes name row ∧ ValueRow false row components ∧
    valueText components = []

theorem eq_nil_of_gaps (hgaps : ∀ gap ∈ gaps, gap.value.isGap)
    (hends : ∀ stop ∈ (gaps ++ rest).head?, stop.value.endsValue) : gaps = [] := by
  cases gaps with
  | nil => rfl
  | cons gap gaps =>
      have hnot := (classes_of_isGap (hgaps gap List.mem_cons_self)).1
      rw [hends gap rfl] at hnot
      cases hnot

theorem MissesValue.not_endsValue (hmisses : MissesValue back name) :
    ¬∀ stop ∈ back.head?, stop.value.endsValue := by
  obtain ⟨row, components, ⟨first, gaps, colon, behind, rfl, hname, -⟩, -⟩ := hmisses
  intro hends
  have hfirst := hends first rfl
  rw [hname] at hfirst
  cases hfirst

/-- What ends a value in front of a declaration is the first semicolon of a row. -/
theorem DeclarationRow.exists_semicolon (hrow : DeclarationRow row declarations)
    (hgaps : ∀ gap ∈ gaps, gap.value.isGap) (hmisses : MissesValue back name)
    (hends : ∀ stop ∈ (row ++ (gaps ++ back)).head?, stop.value.endsValue) :
    ∃ mark others, row = mark :: others ∧ mark.value = .semicolon ∧
      DeclarationRow others declarations := by
  cases hrow with
  | nil =>
      rw [List.nil_append] at hends
      obtain rfl := eq_nil_of_gaps hgaps hends
      exact absurd hends hmisses.not_endsValue
  | @semicolon before others mark declarations hbefore hmark hothers =>
      rw [List.append_assoc] at hends
      obtain rfl := eq_nil_of_gaps hbefore hends
      exact ⟨mark, others, rfl, hmark, hothers⟩
  | @declaration before between value others first colon mark found components declarations
      hbefore hname =>
      rw [List.append_assoc] at hends
      obtain rfl := eq_nil_of_gaps hbefore hends
      have hfirst := hends first rfl
      rw [hname] at hfirst
      cases hfirst

/-- In front of a declaration without a value stand whole ones. -/
theorem exists_of_readDeclarations_eq_error
    (hread : readDeclarations lexemes = .error ⟨.missingValue name, back⟩) :
    MissesValue back name ∧ ∃ row gaps declarations, lexemes = row ++ (gaps ++ back) ∧
      DeclarationRow row declarations ∧ ∀ gap ∈ gaps, gap.value.isGap := by
  fun_induction readDeclarations lexemes with
  | case1 | case2 => cases hread
  | case3 lexemes lexeme rest hbody hvalue ih =>
      obtain ⟨front, hfront, hgaps⟩ := exists_gaps_append hbody
      obtain ⟨hmisses, row, gaps, declarations, rfl, hrow, hgap⟩ := ih hread
      refine ⟨hmisses, _, gaps, _, ?_, .semicolon hgaps hvalue hrow, hgap⟩
      rw [hfront, List.append_assoc, List.cons_append]
  | case4 lexemes lexeme rest hbody name hname colonSource source hcolon found hvalue =>
      cases hread
      exact absurd rfl (cause_ne_of_readComponents hvalue)
  | case5 lexemes lexeme rest hbody found hname colonSource source hcolon
      components after hvalue hempty =>
      cases hread
      obtain ⟨front, hfront, hgaps⟩ := exists_gaps_append hbody
      obtain ⟨between, hrest, hbetween⟩ := exists_gaps_append hcolon
      obtain ⟨row, rfl, hrow, hends⟩ := readComponents_eq_ok_iff.mp hvalue
      refine ⟨⟨row, components, ?_, hrow, by simpa using hempty⟩,
        [], front, [], hfront, .nil, hgaps⟩
      exact ⟨lexeme, between, _, after, by rw [hrest], hname, hbetween, rfl, hends⟩
  | case6 lexemes lexeme rest hbody found hname colonSource source hcolon
      components after hvalue hnonempty ih =>
      obtain ⟨front, hfront, hgaps⟩ := exists_gaps_append hbody
      obtain ⟨between, hrest, hbetween⟩ := exists_gaps_append hcolon
      obtain ⟨value, rfl, hrow, hends⟩ := readComponents_eq_ok_iff.mp hvalue
      obtain ⟨hmisses, row, gaps, declarations, rfl, hothers, hgap⟩ :=
        ih (eq_error_of_map hread)
      -- the reader leaves the semicolon to its next step, a row has it behind the value
      obtain ⟨mark, others, rfl, hmark, hothers⟩ := hothers.exists_semicolon hgap hmisses hends
      have hcolons : (⟨.colon, colonSource⟩ : Lexeme).value = .colon := rfl
      refine ⟨hmisses, _, gaps, _, ?_,
        .declaration hgaps hname hbetween hcolons hrow (by simpa using hnonempty) hmark hothers,
        hgap⟩
      rw [hfront, hrest]
      simp
  | case7 | case8 => cases hread

theorem readDeclarations_of_missesValue (hmisses : MissesValue back name)
    (hgaps : ∀ gap ∈ gaps, gap.value.isGap) :
    readDeclarations (gaps ++ back) = .error ⟨.missingValue name, back⟩ := by
  obtain ⟨row, components, ⟨first, between, colon, behind, rfl, hname, hbetween, hcolon, hends⟩,
    hrow, htext⟩ := hmisses
  rw [readDeclarations_of_value hgaps hname hbetween hcolon hrow hends,
    if_pos (by simpa using htext)]
  rfl

end Declarations

section Stylesheets

variable {lexemes block body back : List Lexeme} {name : List Char} {refusal : Refusal}

theorem readRule_of_error {brace : Lexeme} {selectors : List String}
    (hselectors : readSelectors [] block block = .ok (selectors, brace :: body))
    (hbody : readDeclarations body = .error refusal) : readRule block = .error refusal := by
  simp only [readRule, bind, Except.bind, hselectors, hbody]

theorem exists_of_readRule_eq_error
    (hread : readRule block = .error ⟨.missingValue name, back⟩) :
    ∃ brace body selectors, readSelectors [] block block = .ok (selectors, brace :: body) ∧
      readDeclarations body = .error ⟨.missingValue name, back⟩ := by
  rcases error_or_of_bind hread with hselectors | ⟨⟨selectors, rest⟩, hselectors, hrest⟩
  · exact absurd rfl (cause_ne_of_readSelectors hselectors)
  · cases rest with
    | nil => cases hrest
    | cons brace body =>
        rcases error_or_of_bind hrest with hbody | ⟨⟨declarations, left⟩, -, hleft⟩
        · exact ⟨brace, body, selectors, hselectors, hbody⟩
        · cases left <;> cases hleft

/-- Selectors that are read in front of a block are read in front of any. -/
theorem exists_header_of_readSelectors_dropGaps {brace : Lexeme} {selectors : List String}
    (hselectors : readSelectors [] (dropGaps lexemes) (dropGaps lexemes) =
      .ok (selectors, brace :: body)) :
    ∃ header, lexemes = header ++ body ∧ ∀ other,
      readSelectors [] (dropGaps (header ++ other)) (dropGaps (header ++ other)) =
        .ok (selectors, brace :: other) := by
  obtain ⟨taken, htaken, hother⟩ := readSelectors_append hselectors
  cases hbegins : dropGaps lexemes with
  | nil => simp [hbegins] at htaken
  | cons first rest =>
      obtain ⟨gaps, hlexemes, hdrop⟩ := exists_gaps_of_dropGaps hbegins
      rw [hbegins] at htaken
      refine ⟨gaps ++ (taken ++ [brace]), by simp [hlexemes, htaken], fun other => ?_⟩
      have hhead := congrArg List.head? htaken
      rw [List.head?_cons, List.head?_append] at hhead
      have hplace : dropGaps (gaps ++ (taken ++ [brace]) ++ other) = taken ++ brace :: other := by
        simp only [List.append_assoc, List.singleton_append]
        apply hdrop
        rw [List.head?_append, hhead]
        rfl
      rw [hplace]
      exact hother _ _ rfl

theorem exists_of_readRules_eq_error
    (hread : readRules lexemes = .error ⟨.missingValue name, back⟩) :
    MissesValue back name ∧ ∃ front, lexemes = front ++ back ∧ LeadsToDeclaration front := by
  fun_induction readRules lexemes with
  | case1 => cases hread
  | case2 lexemes lexeme rest hgaps found hrule =>
      cases hread
      obtain ⟨brace, body, selectors, hselectors, hbody⟩ := exists_of_readRule_eq_error hrule
      rw [← hgaps] at hselectors
      obtain ⟨header, rfl, hheader⟩ := exists_header_of_readSelectors_dropGaps hselectors
      obtain ⟨hmisses, row, gaps, declarations, rfl, hrow, hgap⟩ :=
        exists_of_readDeclarations_eq_error hbody
      have hends := hheader []
      rw [List.append_nil] at hends
      exact ⟨hmisses, _, by simp, .intro .nil hends hrow hgap⟩
  | case3 lexemes lexeme rest hgaps rule left hrule ih =>
      obtain ⟨hmisses, front, rfl, hleads⟩ := ih (eq_error_of_map hread)
      obtain ⟨gaps, taken, closing, rfl, hclosing, hdrop, hother⟩ :=
        exists_rule_of_dropGaps hgaps hrule
      refine ⟨hmisses, gaps ++ (taken ++ closing :: front), by simp, ?_⟩
      obtain ⟨hsheet, hheader, hblock, hgap⟩ := hleads
      have hrow := RuleRow.cons hdrop hclosing hother hsheet
      have hplace := LeadsToDeclaration.intro hrow hheader hblock hgap
      simpa using hplace

theorem readRules_of_missesValue {front : List Lexeme} (hleads : LeadsToDeclaration front)
    (hmisses : MissesValue back name) :
    readRules (front ++ back) = .error ⟨.missingValue name, back⟩ := by
  obtain @⟨sheet, header, block, gaps, brace, rules, selectors, declarations, hsheet, hheader,
    hblock, hgaps⟩ := hleads
  obtain ⟨_, rfl, hselectors⟩ := exists_header_of_readSelectors_dropGaps hheader
  have hdeclarations : readDeclarations (block ++ (gaps ++ back)) =
      .error ⟨.missingValue name, back⟩ := by
    rw [hblock.readDeclarations_append, readDeclarations_of_missesValue hmisses hgaps]
    rfl
  have hrule := readRule_of_error (hselectors (block ++ (gaps ++ back))) hdeclarations
  simp only [List.append_nil, List.append_assoc]
  rw [hsheet.readRules_append, readRules_of_block rfl, hrule]
  · rfl
  · intro hnil
    rw [hnil] at hrule
    cases hrule

/-- The stylesheets that are read up to a missing value. -/
theorem readRules_eq_missingValue_iff :
    readRules lexemes = .error ⟨.missingValue name, back⟩ ↔
      ∃ front, lexemes = front ++ back ∧ LeadsToDeclaration front ∧ MissesValue back name := by
  constructor
  · intro hread
    obtain ⟨hmisses, front, hplace, hleads⟩ := exists_of_readRules_eq_error hread
    exact ⟨front, hplace, hleads, hmisses⟩
  · rintro ⟨front, rfl, hleads, hmisses⟩
    exact readRules_of_missesValue hleads hmisses

theorem missesValue_iff {text : List Char} {front : List Lexeme}
    (hlex : lex text = front ++ back) :
    MissesValue back name ↔ ∃ row, BeginsDeclaration back name row ∧
      ((∀ gap ∈ row, gap.value.isGap) ∨ IsEmptyString row) := by
  constructor
  · rintro ⟨row, components, hbegins, hrow, htext⟩
    refine ⟨row, hbegins, ?_⟩
    obtain ⟨first, gaps, colon, behind, rfl, -⟩ := hbegins
    have hvalue : lex text = front ++ first :: (gaps ++ [colon]) ++ (row ++ behind) := by
      rw [hlex]
      simp
    exact hrow.forms_of_valueText_eq_nil (lex_sources hvalue) htext
  · rintro ⟨row, hbegins, hforms⟩
    obtain ⟨components, hrow, htext⟩ := exists_valueRow_of_forms hforms
    exact ⟨row, components, hbegins, hrow, htext⟩

/-- A value is reported as missing exactly where a declaration is due that has nothing but gaps
behind its colon, or nothing but a string without content. -/
theorem readStylesheet_eq_missingValue_iff {css : String} {location : Location} :
    readStylesheet css = .error ⟨.missingValue name, location⟩ ↔
      ∃ front back row, lex css.toList = front ++ back ∧
        location = Location.start.past (Span.sources front) ∧
        LeadsToDeclaration front ∧ BeginsDeclaration back name row ∧
        ((∀ gap ∈ row, gap.value.isGap) ∨ IsEmptyString row) := by
  unfold readStylesheet
  constructor
  · intro hread
    cases hrules : readRules (lex css.toList) with
    | ok rules =>
        rw [hrules] at hread
        cases hread
    | error refusal =>
        rw [hrules] at hread
        obtain ⟨cause, back⟩ := refusal
        cases hread
        obtain ⟨front, hlex, hleads, hmisses⟩ := readRules_eq_missingValue_iff.mp hrules
        obtain ⟨row, hbegins, hforms⟩ := (missesValue_iff hlex).mp hmisses
        exact ⟨front, back, row, hlex, locate_of_lex hlex, hleads, hbegins, hforms⟩
  · rintro ⟨front, back, row, hlex, rfl, hleads, hbegins, hforms⟩
    have hmisses := (missesValue_iff hlex).mpr ⟨row, hbegins, hforms⟩
    rw [readRules_eq_missingValue_iff.mpr ⟨front, hlex, hleads, hmisses⟩]
    simp only [Except.mapError, locate_of_lex hlex]

/-- A declaration with an empty string as its value. -/
def emptyStringSheet : String := "A\x7bx:\"\"\x7d"

def emptyStringTokens : List Lexeme :=
  [⟨.ident ['A'], ['A']⟩, ⟨.opening .curly, ['\x7b']⟩, ⟨.ident ['x'], ['x']⟩,
    ⟨.colon, [':']⟩, ⟨.quoted [], ['"', '"']⟩, ⟨.closing .curly, ['\x7d']⟩]

theorem lex_emptyStringSheet : lex emptyStringSheet.toList = emptyStringTokens := by
  decide +kernel

theorem readStylesheet_emptyStringSheet :
    readStylesheet emptyStringSheet = .error ⟨.missingValue ['x'], ⟨1, 3⟩⟩ := by
  have hvalue : readComponents ['x'] false (emptyStringTokens.drop 4) =
      .ok ([⟨false, [⟨.quoted [], ['"', '"']⟩]⟩], emptyStringTokens.drop 5) :=
    readComponents_eq_ok_iff.mpr ⟨_, rfl, .token rfl .nil, by simp [emptyStringTokens,
      Token.endsValue]⟩
  have hdeclarations : readDeclarations (emptyStringTokens.drop 2) =
      .error ⟨.missingValue ['x'], emptyStringTokens.drop 2⟩ :=
    readDeclarations_of_components rfl rfl hvalue
  have hselectors : readSelectors [] emptyStringTokens emptyStringTokens =
      .ok (["A"], emptyStringTokens.tail) := rfl
  have hblock : dropGaps emptyStringTokens = emptyStringTokens := rfl
  rw [readStylesheet, lex_emptyStringSheet, readRules_of_block hblock (List.cons_ne_nil _ _),
    readRule_of_error hselectors hdeclarations]
  rfl

/-- The value that is reported as missing has a token that is no gap. -/
theorem exists_quoted_emptyStringSheet :
    readStylesheet emptyStringSheet = .error ⟨.missingValue ['x'], ⟨1, 3⟩⟩ ∧
      ∀ front back row, lex emptyStringSheet.toList = front ++ back →
        BeginsDeclaration back ['x'] row → ∃ string ∈ row, string.value = .quoted [] := by
  refine ⟨readStylesheet_emptyStringSheet, ?_⟩
  rintro front _ row hlex ⟨first, gaps, colon, behind, rfl, hname, hgaps, -, hends⟩
  rw [lex_emptyStringSheet, emptyStringTokens] at hlex
  rcases front with _ | ⟨a, _ | ⟨b, _ | ⟨c, front⟩⟩⟩
  · obtain ⟨rfl, -⟩ := List.cons.inj hlex
    exact absurd hname (by decide)
  · obtain ⟨rfl, -⟩ := List.cons.inj (List.cons.inj hlex).2
    exact absurd hname (by decide)
  · -- the name of the declaration, so the string is the first token behind its colon
    have hcolon := (List.cons.inj (List.cons.inj (List.cons.inj hlex).2).2).2
    rcases gaps with _ | ⟨gap, gaps⟩
    · have hrow := (List.cons.inj hcolon).2
      rcases row with _ | ⟨string, row⟩
      · rw [List.nil_append] at hrow
        rw [← hrow] at hends
        exact absurd (hends _ rfl) (by decide)
      · obtain ⟨rfl, -⟩ := List.cons.inj hrow
        exact ⟨_, List.mem_cons_self, rfl⟩
    · obtain ⟨rfl, -⟩ := List.cons.inj hcolon
      exact absurd (hgaps _ List.mem_cons_self) (by decide)
  · have hmem : first ∈ emptyStringTokens.drop 3 := by
      have hrest := (List.cons.inj (List.cons.inj (List.cons.inj hlex).2).2).2
      rw [emptyStringTokens, List.drop_succ_cons, List.drop_succ_cons, List.drop_succ_cons,
        List.drop_zero, hrest]
      simp
    have hnone : ∀ lexeme ∈ emptyStringTokens.drop 3, lexeme.value ≠ .ident ['x'] := by decide
    exact absurd hname (hnone first hmem)

end Stylesheets

end ThemeSheet

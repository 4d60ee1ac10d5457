import ThemeSheet.Proofs.Reading
import Mathlib.Data.List.TakeWhile

/-!
# Readers stop where they say

A reader that leaves some lexemes unread has looked at the first of them at
most.  So a rule is read the same whatever stands behind its closing brace,
and the lexemes of a stylesheet are a row of such rules with gaps behind it.
-/

namespace ThemeSheet

theorem exists_gaps_of_dropGaps {lexemes rest : List Lexeme} {lexeme : Lexeme}
    (hgaps : dropGaps lexemes = lexeme :: rest) :
    ∃ gaps, lexemes = gaps ++ lexeme :: rest ∧
      ∀ other, other.head? = some lexeme → dropGaps (gaps ++ other) = other := by
  induction lexemes with
  | nil => cases hgaps
  | cons first lexemes ih =>
      by_cases hgap : first.value.isGap
      · rw [dropGaps_cons_of_isGap hgap] at hgaps
        obtain ⟨gaps, hlexemes, hother⟩ := ih hgaps
        refine ⟨first :: gaps, by rw [hlexemes, List.cons_append], fun other hhead => ?_⟩
        rw [List.cons_append, dropGaps_cons_of_isGap hgap, hother other hhead]
      · rw [dropGaps_cons_of_not_isGap hgap, List.cons.injEq] at hgaps
        obtain ⟨rfl, rfl⟩ := hgaps
        refine ⟨[], rfl, fun other hhead => ?_⟩
        obtain ⟨behind, rfl⟩ := List.head?_eq_some_iff.mp hhead
        exact dropGaps_cons_of_not_isGap hgap behind

/-! ## Values -/

theorem takeGroup_append {stack : List Bracket} {lexemes group left : List Lexeme}
    (htake : takeGroup stack lexemes = some (group, left)) (other : List Lexeme) :
    takeGroup stack (group ++ other) = some (group, other) := by
  induction lexemes generalizing stack group with
  | nil => cases htake
  | cons lexeme rest ih =>
      simp only [takeGroup] at htake
      split at htake
      next hclosed =>
        rw [Option.some.injEq, Prod.mk.injEq] at htake
        rw [← htake.1, List.singleton_append, takeGroup, if_pos hclosed]
      next hopen =>
        obtain ⟨⟨inner, behind⟩, hinner, heq⟩ := Option.map_eq_some_iff.mp htake
        rw [Prod.mk.injEq] at heq
        obtain ⟨rfl, rfl⟩ := heq
        rw [List.cons_append, takeGroup, if_neg hopen, ih hinner]
        rfl

theorem readComponents_of_group
    {property : List Char} {spaced : Bool} {lexeme : Lexeme} {bracket : Bracket}
    {rest group after left : List Lexeme} {components : List Component}
    (hends : ¬lexeme.value.endsValue) (hstray : ¬lexeme.value.isStray)
    (hgap : ¬lexeme.value.isGap) (hopens : lexeme.value.opens? = some bracket)
    (hgroup : takeGroup [bracket] rest = some (group, after))
    (hothers : readComponents property false after = .ok (components, left)) :
    readComponents property spaced (lexeme :: rest) =
      .ok (⟨spaced, lexeme :: group⟩ :: components, left) := by
  rw [readComponents, if_neg hends, if_neg hstray, if_neg hgap]
  split
  next hnone =>
    rw [hopens] at hnone
    cases hnone
  next found hsome =>
    rw [hopens, Option.some.injEq] at hsome
    subst hsome
    split
    next hnone =>
      rw [hgroup] at hnone
      cases hnone
    next foundGroup foundAfter hfound =>
      rw [hgroup, Option.some.injEq, Prod.mk.injEq] at hfound
      obtain ⟨rfl, rfl⟩ := hfound
      rw [hothers]
      rfl

theorem readComponents_append
    {property : List Char} {spaced : Bool} {lexemes left : List Lexeme}
    {components : List Component}
    (hread : readComponents property spaced lexemes = .ok (components, left)) :
    ∃ taken, lexemes = taken ++ left ∧ ∀ other, other.head? = left.head? →
      readComponents property spaced (taken ++ other) = .ok (components, other) := by
  fun_induction readComponents property spaced lexemes generalizing components with
  | case1 spaced =>
      cases hread
      refine ⟨[], rfl, fun other hhead => ?_⟩
      rw [List.head?_eq_none_iff.mp hhead, List.append_nil, readComponents]
  | case2 spaced lexeme rest hends =>
      cases hread
      refine ⟨[], rfl, fun other hhead => ?_⟩
      obtain ⟨behind, rfl⟩ := List.head?_eq_some_iff.mp hhead
      rw [List.nil_append, readComponents, if_pos hends]
  | case3 => cases hread
  | case4 spaced lexeme rest hends hstray hgap ih =>
      obtain ⟨taken, rfl, hother⟩ := ih hread
      refine ⟨lexeme :: taken, rfl, fun other hhead => ?_⟩
      rw [List.cons_append, readComponents, if_neg hends, if_neg hstray, if_pos hgap]
      exact hother other hhead
  | case5 spaced lexeme rest hends hstray hgap hopens ih =>
      obtain ⟨⟨others, after⟩, hrest, heq⟩ := exists_of_map_eq_ok hread
      rw [Prod.mk.injEq] at heq
      obtain ⟨rfl, rfl⟩ := heq
      obtain ⟨taken, rfl, hother⟩ := ih hrest
      refine ⟨lexeme :: taken, rfl, fun other hhead => ?_⟩
      rw [List.cons_append, readComponents, if_neg hends, if_neg hstray, if_neg hgap,
        hopens, hother other hhead]
      rfl
  | case6 => cases hread
  | case7 spaced lexeme rest hends hstray hgap bracket hopens group after hgroup ih =>
      obtain ⟨⟨others, behind⟩, hrest, heq⟩ := exists_of_map_eq_ok hread
      rw [Prod.mk.injEq] at heq
      obtain ⟨rfl, rfl⟩ := heq
      obtain ⟨taken, rfl, hother⟩ := ih hrest
      refine ⟨lexeme :: (group ++ taken), ?_, fun other hhead => ?_⟩
      · rw [← append_of_takeGroup hgroup, List.cons_append, List.append_assoc]
      · rw [List.cons_append, List.append_assoc]
        exact readComponents_of_group hends hstray hgap hopens
          (takeGroup_append hgroup _) (hother other hhead)

/-! ## Selectors -/

theorem closeSelector_of_ok {selector : List Char} {mark : List Lexeme} {closed : String}
    (hclose : closeSelector selector mark = .ok closed) (other : List Lexeme) :
    closeSelector selector other = .ok closed := by
  unfold closeSelector at hclose ⊢
  split at hclose
  next => cases hclose
  next hne => rw [if_neg hne, hclose]

theorem readSelectors_of_selectorText? {lexeme : Lexeme} {text : List Char}
    (htext : lexeme.value.selectorText? = some text) (selector : List Char)
    (mark rest : List Lexeme) :
    readSelectors selector mark (lexeme :: rest) =
      readSelectors (selector ++ text) rest rest := by
  rcases lexeme with ⟨token, source⟩
  cases token with
  | opening bracket => cases htext
  | comment | whitespace | comma => cases htext
  | _ => simp only [readSelectors, htext]

theorem readSelectors_append
    {selector : List Char} {mark lexemes left : List Lexeme} {selectors : List String}
    (hread : readSelectors selector mark lexemes = .ok (selectors, left)) :
    ∃ taken, lexemes = taken ++ left ∧ ∀ mark other, other.head? = left.head? →
      readSelectors selector mark (taken ++ other) = .ok (selectors, other) := by
  fun_induction readSelectors selector mark lexemes generalizing selectors with
  | case1 selector mark =>
      obtain ⟨last, hclose, heq⟩ := exists_of_map_eq_ok hread
      cases heq
      refine ⟨[], rfl, fun mark other hhead => ?_⟩
      rw [List.head?_eq_none_iff.mp hhead, List.append_nil, readSelectors, hclose]
      rfl
  | case2 selector mark lexeme rest hvalue =>
      obtain ⟨last, hclose, heq⟩ := exists_of_map_eq_ok hread
      cases heq
      refine ⟨[], rfl, fun mark other hhead => ?_⟩
      obtain ⟨behind, rfl⟩ := List.head?_eq_some_iff.mp hhead
      rw [List.nil_append, readSelectors, hvalue]
      simp only
      rw [closeSelector_of_ok hclose]
      rfl
  | case3 selector mark lexeme rest hvalue ih =>
      obtain ⟨taken, rfl, hother⟩ := ih hread
      refine ⟨lexeme :: taken, rfl, fun mark other hhead => ?_⟩
      rw [List.cons_append, readSelectors, hvalue]
      exact hother mark other hhead
  | case4 selector mark lexeme rest hvalue ih =>
      obtain ⟨taken, rfl, hother⟩ := ih hread
      refine ⟨lexeme :: taken, rfl, fun mark other hhead => ?_⟩
      rw [List.cons_append, readSelectors, hvalue]
      exact hother _ other hhead
  | case5 selector mark lexeme rest hvalue ih =>
      obtain ⟨closed, hclose, hothers⟩ := exists_of_bind_eq_ok hread
      obtain ⟨⟨others, after⟩, hrest, heq⟩ := exists_of_bind_eq_ok hothers
      cases heq
      obtain ⟨taken, rfl, hother⟩ := ih hrest
      refine ⟨lexeme :: taken, rfl, fun mark other hhead => ?_⟩
      rw [List.cons_append, readSelectors, hvalue]
      simp only [closeSelector_of_ok hclose, hother _ other hhead, bind, Except.bind]
      rfl
  | case6 selector mark lexeme rest _ _ _ _ text htext ih =>
      obtain ⟨taken, rfl, hother⟩ := ih hread
      refine ⟨lexeme :: taken, rfl, fun mark other hhead => ?_⟩
      rw [List.cons_append, readSelectors_of_selectorText? htext]
      exact hother _ other hhead
  | case7 => cases hread

/-! ## Declarations -/

theorem readDeclarations_of_semicolon {lexemes rest : List Lexeme} {source : List Char}
    (hbody : dropGaps lexemes = ⟨.semicolon, source⟩ :: rest) :
    readDeclarations lexemes = readDeclarations rest := by
  rw [readDeclarations]
  split
  next hnil =>
    rw [hnil] at hbody
    cases hbody
  next lexeme more hcons =>
    rw [hbody, List.cons.injEq] at hcons
    obtain ⟨rfl, rfl⟩ := hcons
    rfl

theorem readDeclarations_append {lexemes left : List Lexeme}
    {declarations : List Declaration}
    (hread : readDeclarations lexemes = .ok (declarations, left)) :
    ∃ taken, lexemes = taken ++ left ∧ ∀ other, other.head? = left.head? →
      readDeclarations (taken ++ other) = .ok (declarations, other) := by
  fun_induction readDeclarations lexemes generalizing declarations with
  | case1 lexemes hbody =>
      cases hread
      refine ⟨lexemes, (List.append_nil _).symm, fun other hhead => ?_⟩
      rw [List.head?_eq_none_iff.mp hhead, List.append_nil, readDeclarations]
      split
      next => rfl
      next hcons =>
        rw [hbody] at hcons
        cases hcons
  | case2 lexemes lexeme rest hbody hvalue =>
      cases hread
      rcases lexeme with ⟨token, source⟩
      obtain rfl : token = .closing .curly := hvalue
      obtain ⟨gaps, rfl, hgaps⟩ := exists_gaps_of_dropGaps hbody
      refine ⟨gaps, rfl, fun other hhead => ?_⟩
      obtain ⟨behind, rfl⟩ := List.head?_eq_some_iff.mp hhead
      exact readDeclarations_of_closing (hgaps _ rfl)
  | case3 lexemes lexeme rest hbody hvalue ih =>
      rcases lexeme with ⟨token, source⟩
      obtain rfl : token = .semicolon := hvalue
      obtain ⟨gaps, rfl, hgaps⟩ := exists_gaps_of_dropGaps hbody
      obtain ⟨taken, rfl, hother⟩ := ih hread
      refine ⟨gaps ++ ⟨.semicolon, source⟩ :: taken, by simp, fun other hhead => ?_⟩
      rw [List.append_assoc, List.cons_append, readDeclarations_of_semicolon (hgaps _ rfl)]
      exact hother other hhead
  | case4 => cases hread
  | case5 => cases hread
  | case6 lexemes lexeme rest hbody name hname colonSource source hcolon
      components after hvalue hnonempty ih =>
      obtain ⟨⟨others, behind⟩, hrest, heq⟩ := exists_of_map_eq_ok hread
      cases heq
      rcases lexeme with ⟨token, nameSource⟩
      obtain rfl : token = .ident name := hname
      obtain ⟨gaps, rfl, hgaps⟩ := exists_gaps_of_dropGaps hbody
      obtain ⟨colonGaps, rfl, hcolonGaps⟩ := exists_gaps_of_dropGaps hcolon
      obtain ⟨value, rfl, hvalueOther⟩ := readComponents_append hvalue
      obtain ⟨taken, rfl, hother⟩ := ih hrest
      refine ⟨gaps ++ ⟨.ident name, nameSource⟩ ::
        (colonGaps ++ ⟨.colon, colonSource⟩ :: (value ++ taken)), by simp,
        fun other hhead => ?_⟩
      have hvalueHere : readComponents name false (value ++ (taken ++ other)) =
          .ok (components, taken ++ other) := by
        apply hvalueOther
        rw [List.head?_append, List.head?_append, hhead]
      simp only [List.append_assoc, List.cons_append]
      exact readDeclarations_of_ident (hgaps _ rfl) (hcolonGaps _ rfl) hvalueHere
        (by simpa using hnonempty) (hother other hhead)
  | case7 => cases hread
  | case8 => cases hread

theorem eq_closing_of_readDeclarations {lexemes left : List Lexeme} {stop : Lexeme}
    {declarations : List Declaration}
    (hread : readDeclarations lexemes = .ok (declarations, stop :: left)) :
    stop.value = .closing .curly := by
  fun_induction readDeclarations lexemes generalizing declarations with
  | case2 lexemes lexeme rest hbody hvalue =>
      cases hread
      exact hvalue
  | case3 lexemes lexeme rest hbody hvalue ih => exact ih hread
  | case6 lexemes lexeme rest hbody name hname colonSource source hcolon
      components after hvalue hnonempty ih =>
      obtain ⟨⟨others, behind⟩, hrest, heq⟩ := exists_of_map_eq_ok hread
      cases heq
      exact ih hrest
  | case1 | case4 | case5 | case7 | case8 => cases hread

/-! ## Rules -/

theorem readRule_append {lexemes left : List Lexeme} {rule : Rule}
    (hread : readRule lexemes = .ok (rule, left)) :
    ∃ taken closing, lexemes = taken ++ closing :: left ∧
      closing.value = .closing .curly ∧
      ∀ other, readRule (taken ++ closing :: other) = .ok (rule, other) := by
  obtain ⟨brace, body, closing, hselectors, hdeclarations⟩ := exists_block_of_readRule hread
  obtain ⟨selectors, hlexemes, hselected⟩ := readSelectors_append hselectors
  obtain ⟨declarations, rfl, hdeclared⟩ := readDeclarations_append hdeclarations
  refine ⟨selectors ++ brace :: declarations, closing, by simpa using hlexemes,
    eq_closing_of_readDeclarations hdeclarations, fun other => ?_⟩
  rw [List.append_assoc, List.cons_append]
  exact readRule_of_block (hselected _ _ rfl) (hdeclared _ rfl)

theorem exists_rule_of_dropGaps {lexemes rest left : List Lexeme} {lexeme : Lexeme}
    {rule : Rule} (hgaps : dropGaps lexemes = lexeme :: rest)
    (hrule : readRule (lexeme :: rest) = .ok (rule, left)) :
    ∃ gaps taken closing, lexemes = gaps ++ (taken ++ closing :: left) ∧
      closing.value = .closing .curly ∧
      (∀ other, dropGaps (gaps ++ (taken ++ closing :: other)) = taken ++ closing :: other) ∧
      ∀ other, readRule (taken ++ closing :: other) = .ok (rule, other) := by
  obtain ⟨taken, closing, hblock, hclosing, hother⟩ := readRule_append hrule
  obtain ⟨gaps, hlexemes, hdrop⟩ := exists_gaps_of_dropGaps hgaps
  rw [hblock] at hlexemes
  refine ⟨gaps, taken, closing, hlexemes, hclosing, fun other => ?_, hother⟩
  have hhead := congrArg List.head? hblock
  rw [List.head?_cons, List.head?_append] at hhead
  apply hdrop
  rw [List.head?_append, hhead]
  rfl

/-- Whole rules in a row, each with the gaps in front of it and read the same
whatever stands behind it. -/
inductive RuleRow : List Lexeme → List Rule → Prop where
  | nil : RuleRow [] []
  | cons {gaps taken row : List Lexeme} {closing : Lexeme} {rule : Rule}
      {rules : List Rule}
      (hgaps : ∀ other, dropGaps (gaps ++ (taken ++ closing :: other)) =
        taken ++ closing :: other)
      (hclosing : closing.value = .closing .curly)
      (hrule : ∀ other, readRule (taken ++ closing :: other) = .ok (rule, other))
      (hrow : RuleRow row rules) :
      RuleRow (gaps ++ (taken ++ closing :: row)) (rule :: rules)

theorem exists_ruleRow_of_readRules {lexemes : List Lexeme} {rules : List Rule}
    (hread : readRules lexemes = .ok rules) :
    ∃ row gaps, lexemes = row ++ gaps ∧ RuleRow row rules ∧
      ∀ gap ∈ gaps, gap.value.isGap := by
  fun_induction readRules lexemes generalizing rules with
  | case1 lexemes hgaps =>
      cases hread
      exact ⟨[], lexemes, rfl, .nil, List.dropWhile_eq_nil_iff.mp hgaps⟩
  | case2 => cases hread
  | case3 lexemes lexeme rest hgaps rule left hrule ih =>
      obtain ⟨others, hothers, rfl⟩ := exists_of_map_eq_ok hread
      obtain ⟨row, behind, rfl, hrow, hbehind⟩ := ih hothers
      obtain ⟨gaps, taken, closing, rfl, hclosing, hdrop, hother⟩ :=
        exists_rule_of_dropGaps hgaps hrule
      exact ⟨gaps ++ (taken ++ closing :: row), behind, by simp,
        .cons hdrop hclosing hother hrow, hbehind⟩

section Rows

variable {row : List Lexeme} {rules : List Rule}

theorem RuleRow.readRules_append (hrow : RuleRow row rules) (other : List Lexeme) :
    readRules (row ++ other) = (readRules other).map (rules ++ ·) := by
  induction hrow with
  | nil => cases hread : readRules other <;> simp [hread, Except.map]
  | @cons gaps taken row closing rule rules hgaps hclosing hrule hrow ih =>
      simp only [List.append_assoc, List.cons_append]
      rw [readRules_of_rule (hgaps _) (hrule _), ih]
      cases readRules other <;> rfl

theorem RuleRow.eq_nil_or_closing (hrow : RuleRow row rules) :
    row = [] ∨ ∃ front closing, row = front ++ [closing] ∧
      closing.value = .closing .curly := by
  induction hrow with
  | nil => exact .inl rfl
  | @cons gaps taken row closing rule rules hgaps hclosing hrule hrow ih =>
      right
      rcases ih with rfl | ⟨front, last, rfl, hlast⟩
      · exact ⟨gaps ++ taken, closing, by simp, hclosing⟩
      · exact ⟨gaps ++ (taken ++ closing :: front), last, by simp, hlast⟩

end Rows

end ThemeSheet

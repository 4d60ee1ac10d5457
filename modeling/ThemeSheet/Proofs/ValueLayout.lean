import ThemeSheet.Proofs.Passages
import Mathlib.Data.List.Forall2

/-!
# Layouts of values

The tokens of a value can be laid out as components, each with the gaps in front of it,
and the gaps behind the last one.  The text of the value follows from the layout, without
the flags of a reader: the sources of the components, and a space between two of them
wherever whitespace is among the gaps.
-/

namespace ThemeSheet

/-- Whether some tokens make up one component: a token by itself, or a group from what
opens it to what closes it. -/
inductive IsComponent : List Lexeme → Prop where
  | token {lexeme : Lexeme} (halone : lexeme.value.standsAlone) : IsComponent [lexeme]
  | group {lexeme : Lexeme} {group : List Lexeme} {bracket : Bracket}
      (hopens : lexeme.value.opens? = some bracket) (hcurly : bracket ≠ .curly)
      (hgroup : Closes [bracket] group) : IsComponent (lexeme :: group)

/-- A component and the gaps in front of it. -/
structure Item where
  gaps : List Lexeme
  lexemes : List Lexeme
  isGap : ∀ gap ∈ gaps, gap.value.isGap
  isComponent : IsComponent lexemes

namespace Item

/-- A component with no gap in front of it. -/
def ofComponent (lexemes : List Lexeme) (isComponent : IsComponent lexemes) : Item where
  gaps := []
  lexemes := lexemes
  isGap := List.forall_mem_nil _
  isComponent := isComponent

def row (item : Item) : List Lexeme := item.gaps ++ item.lexemes

def isSpaced (item : Item) : Bool := item.gaps.any (fun gap => gap.value = .whitespace)

def source (item : Item) : List Char := Span.sources item.lexemes

/-- The text of an item behind another one. -/
def continuation (item : Item) : List Char :=
  if item.isSpaced then ' ' :: item.source else item.source

def quoted? (item : Item) : Option (List Char) :=
  match item.lexemes with
  | [⟨.quoted text, _⟩] => some text
  | _ => none

/-- What a reader of values makes of an item. -/
def component (item : Item) : Component := ⟨item.isSpaced, item.lexemes⟩

end Item

def joinedText : List Item → List Char
  | [] => []
  | first :: others => first.source ++ others.flatMap (·.continuation)

/-- A way to lay out the tokens of a value. -/
structure ValueLayout (row : List Lexeme) where
  items : List Item
  behind : List Lexeme
  isGap_behind : ∀ gap ∈ behind, gap.value.isGap
  row_eq : items.flatMap Item.row ++ behind = row

namespace ValueLayout

variable {row : List Lexeme}

/-- A layout with no gap behind the last component. -/
def ofItems (items : List Item) : ValueLayout (items.flatMap Item.row) where
  items := items
  behind := []
  isGap_behind := List.forall_mem_nil _
  row_eq := List.append_nil _

/-- The content of a string that is the only component. -/
def quoted? (layout : ValueLayout row) : Option (List Char) :=
  match layout.items with
  | [item] => item.quoted?
  | _ => none

def text (layout : ValueLayout row) : List Char :=
  layout.quoted?.getD (joinedText layout.items)

end ValueLayout

/-! ## Layouts and rows -/

section Rows

variable {spaced : Bool} {row gaps : List Lexeme} {components others : List Component}

theorem ValueRow.gaps_append (hgaps : ∀ gap ∈ gaps, gap.value.isGap)
    (hrow : ValueRow (spaced || gaps.any (fun gap => gap.value = .whitespace)) row
      components) :
    ValueRow spaced (gaps ++ row) components := by
  induction gaps generalizing spaced with
  | nil => simpa using hrow
  | cons gap gaps ih =>
      rw [List.forall_mem_cons] at hgaps
      rw [List.any_cons, ← Bool.or_assoc] at hrow
      exact .gap hgaps.1 (ih hgaps.2 hrow)

theorem ValueRow.item_append (item : Item) (hrow : ValueRow false row components) :
    ValueRow false (item.row ++ row) (item.component :: components) := by
  rw [Item.row, List.append_assoc]
  apply ValueRow.gaps_append item.isGap
  rw [Bool.false_or]
  rcases item with ⟨gaps, lexemes, hgaps, hcomponent⟩
  cases hcomponent with
  | token halone => exact .token halone hrow
  | group hopens hcurly hgroup => exact .group hopens hcurly hgroup hrow

theorem valueRow_items (items : List Item) (hgaps : ∀ gap ∈ gaps, gap.value.isGap) :
    ValueRow false (items.flatMap Item.row ++ gaps) (items.map Item.component) := by
  induction items with
  | nil =>
      have hrow : ValueRow false (gaps ++ []) [] := .gaps_append hgaps .nil
      rwa [List.append_nil] at hrow
  | cons item items ih =>
      rw [List.flatMap_cons, List.append_assoc]
      exact .item_append item ih

theorem ValueLayout.valueRow (layout : ValueLayout row) :
    ValueRow false row (layout.items.map Item.component) := by
  have hrow := valueRow_items layout.items layout.isGap_behind
  rwa [layout.row_eq] at hrow

/-- Every row that is read as a value has a layout. -/
theorem ValueRow.nonempty_layout (hrow : ValueRow spaced row components) :
    Nonempty (ValueLayout row) := by
  induction hrow with
  | nil => exact ⟨.ofItems []⟩
  | @gap spaced lexeme row components hgap hrow ih =>
      obtain ⟨⟨items, behind, hbehind, rfl⟩⟩ := ih
      cases items with
      | nil => exact ⟨⟨[], lexeme :: behind, List.forall_mem_cons.mpr ⟨hgap, hbehind⟩, rfl⟩⟩
      | cons item items =>
          have hgaps : ∀ gap ∈ lexeme :: item.gaps, gap.value.isGap :=
            List.forall_mem_cons.mpr ⟨hgap, item.isGap⟩
          exact ⟨⟨⟨lexeme :: item.gaps, item.lexemes, hgaps, item.isComponent⟩ :: items,
            behind, hbehind, rfl⟩⟩
  | @token spaced lexeme row components halone hrow ih =>
      obtain ⟨⟨items, behind, hbehind, rfl⟩⟩ := ih
      exact ⟨⟨.ofComponent [lexeme] (.token halone) :: items, behind, hbehind, rfl⟩⟩
  | @group spaced lexeme group row components bracket hopens hcurly hgroup hrow ih =>
      obtain ⟨⟨items, behind, hbehind, rfl⟩⟩ := ih
      refine ⟨⟨.ofComponent (lexeme :: group) (.group hopens hcurly hgroup) :: items, behind,
        hbehind, ?_⟩⟩
      simp [Item.row, Item.ofComponent]

/-- A row is read as one list of components only. -/
theorem ValueRow.components_eq (hrow : ValueRow spaced row components)
    (hother : ValueRow spaced row others) : components = others := by
  have hread : ∀ {found : List Component}, ValueRow spaced row found →
      readComponents [] spaced (row ++ []) = .ok (found, []) :=
    fun hfound => readComponents_eq_ok_iff.mpr ⟨row, rfl, hfound, by simp⟩
  have hsame := (hread hrow).symm.trans (hread hother)
  rw [Except.ok.injEq, Prod.mk.injEq] at hsame
  exact hsame.1

theorem ValueLayout.valueText_components (layout : ValueLayout row) :
    valueText (layout.items.map Item.component) = layout.text := by
  rw [text, quoted?]
  rcases layout.items with _ | ⟨first, _ | ⟨second, others⟩⟩
  · rfl
  · rw [joinedText, List.flatMap_nil, List.append_nil]
    rfl
  · rw [Option.getD_none, joinedText, List.map_cons, List.map_cons, valueText,
      ← List.map_cons, List.flatMap_map]
    · rfl
    · simp

/-- However a row is laid out, its text is the value. -/
theorem ValueRow.valueText_eq (hrow : ValueRow false row components)
    (layout : ValueLayout row) : valueText components = layout.text := by
  rw [hrow.components_eq layout.valueRow, layout.valueText_components]

end Rows

/-! ## Declarations -/

/-- Whether a declaration stands among some tokens with the given row as its value: the
row goes from the colon behind its name to what ends a value. -/
def IsDeclared (lexemes : List Lexeme) (declaration : Declaration) (row : List Lexeme) :
    Prop :=
  ∃ front name gaps colon ending back,
    lexemes = front ++ name :: (gaps ++ colon :: (row ++ ending :: back)) ∧
      name.value = .ident declaration.name.toList ∧ (∀ gap ∈ gaps, gap.value.isGap) ∧
      colon.value = .colon ∧ ending.value.endsValue

section Declarations

variable {lexemes others rest row left : List Lexeme} {closing : Lexeme}
variable {declaration : Declaration} {declarations : List Declaration}

theorem exists_gaps_append (hgaps : dropGaps lexemes = rest) :
    ∃ gaps, lexemes = gaps ++ rest ∧ ∀ gap ∈ gaps, gap.value.isGap := by
  refine ⟨lexemes.takeWhile (fun lexeme => lexeme.value.isGap), ?_, ?_⟩
  · rw [← hgaps]
    exact List.takeWhile_append_dropWhile.symm
  · intro gap hgap
    exact List.mem_takeWhile_imp (p := fun lexeme : Lexeme => lexeme.value.isGap) hgap

theorem IsDeclared.of_isInfix (hdeclared : IsDeclared lexemes declaration row)
    (hin : lexemes <:+: others) : IsDeclared others declaration row := by
  obtain ⟨front, name, gaps, colon, ending, back, rfl, hclasses⟩ := hdeclared
  obtain ⟨before, after, rfl⟩ := hin
  exact ⟨before ++ front, name, gaps, colon, ending, back ++ after, by simp, hclasses⟩

/-- The values of a block stand where its declarations have them. -/
theorem forall₂_isDeclared_of_readDeclarations
    (hread : readDeclarations lexemes = .ok (declarations, closing :: left)) :
    List.Forall₂ (IsDeclared lexemes) declarations (valueRows lexemes) := by
  fun_induction readDeclarations lexemes generalizing declarations with
  | case1 => cases hread
  | case2 lexemes lexeme rest hbody hvalue =>
      cases hread
      rw [valueRows_of_cons hbody, hvalue]
      exact .nil
  | case3 lexemes lexeme rest hbody hvalue ih =>
      rw [valueRows_of_cons hbody, hvalue]
      have hin := (isSuffix_of_dropGaps hbody).isInfix
      exact (ih hread).imp fun _ _ hdeclared => hdeclared.of_isInfix hin
  | case6 lexemes lexeme rest hbody name hname colonSource source hcolon
      components after hvalue hnonempty ih =>
      obtain ⟨⟨others, behind⟩, hrest, heq⟩ := exists_of_map_eq_ok hread
      cases heq
      obtain ⟨row, rfl, hrow, hafter⟩ := readComponents_eq_ok_iff.mp hvalue
      rw [valueRows_of_cons hbody, hname, hcolon, List.tail_cons,
        hrow.takeValue_append hafter, List.drop_left]
      obtain ⟨front, hfront, -⟩ := exists_gaps_append hbody
      obtain ⟨gaps, hgaps, hgap⟩ := exists_gaps_append hcolon
      -- the block does not end with the value, since its brace is still to come
      obtain ⟨ending, back, rfl⟩ : ∃ ending back, after = ending :: back := by
        apply List.exists_cons_of_ne_nil
        rintro rfl
        have hleft := isSuffix_of_readDeclarations hrest
        cases List.suffix_nil.mp hleft
      have hplace : lexemes =
          front ++ lexeme :: (gaps ++ ⟨.colon, colonSource⟩ :: (row ++ ending :: back)) := by
        rw [hfront, hgaps]
      refine .cons ⟨front, lexeme, gaps, _, ending, back, hplace, ?_, hgap, rfl,
        hafter ending rfl⟩ ?_
      · rw [hname, Declaration.ofChars, String.toList_ofList]
      · have hin : ending :: back <:+ lexemes := by
          rw [hplace]
          refine ⟨front ++ lexeme :: (gaps ++ ⟨.colon, colonSource⟩ :: row), ?_⟩
          simp
        exact (ih hrest).imp fun _ _ hdeclared => hdeclared.of_isInfix hin.isInfix
  | case4 | case5 | case7 | case8 => cases hread

end Declarations

/-! ## Stylesheets -/

section Stylesheets

variable {css : String} {rules : List Rule} {site : Site} {row : List Lexeme}

theorem layouts_of_mem_sites (hmem : site ∈ sites css) :
    List.Forall₂ (fun declaration row => IsDeclared (lex css.toList) declaration row ∧
      Nonempty (ValueLayout row) ∧
      ∀ layout : ValueLayout row, declaration.value = String.ofList layout.text)
      site.rule.declarations (site.valueRows css) := by
  obtain ⟨brace, body, closing, left, hselectors, hdeclarations⟩ :=
    exists_block_of_mem_sites hmem
  have hbody := (blockTokens_of_readSelectors hselectors).1
  have hin : body <:+: lex css.toList := by
    have hblock := (isSuffix_of_readSelectors hselectors).isInfix
    exact (List.suffix_cons brace body).isInfix.trans
      (hblock.trans (isIn_isInfix_of_mem_sites hmem).2)
  have hplaces := forall₂_isDeclared_of_readDeclarations hdeclarations
  rw [← hbody] at hin hplaces
  refine List.Forall₂.mp ?_ hplaces (values_of_mem_sites hmem)
  rintro declaration row hdeclared ⟨components, hrow, hvalue⟩
  refine ⟨hdeclared.of_isInfix hin, hrow.nonempty_layout, ?_⟩
  intro layout
  rw [hvalue, hrow.valueText_eq layout]

/-- The values of an accepted stylesheet are the texts of their layouts. -/
theorem values_of_readStylesheet (hread : readStylesheet css = .ok rules) :
    (sites css).map (·.rule) = rules ∧
      ∀ site ∈ sites css,
        List.Forall₂ (fun declaration row => IsDeclared (lex css.toList) declaration row ∧
          Nonempty (ValueLayout row) ∧
          ∀ layout : ValueLayout row, declaration.value = String.ofList layout.text)
          site.rule.declarations (site.valueRows css) :=
  ⟨map_rule_sites hread, fun _ hmem => layouts_of_mem_sites hmem⟩

/-- The tokens of a rule with one declaration. -/
def declarationRule (row : List Lexeme) : List Lexeme :=
  [⟨.ident ['A'], ['A']⟩, ⟨.opening .curly, ['\x7b']⟩, ⟨.ident ['x'], ['x']⟩,
    ⟨.colon, [':']⟩] ++ row ++ [⟨.closing .curly, ['\x7d']⟩]

/-- A declaration is read from any layout that has a text. -/
theorem exists_site_of_layout (layout : ValueLayout row)
    (hlex : lex css.toList = declarationRule row) (htext : layout.text ≠ []) :
    readStylesheet css = .ok [⟨["A"], [⟨"x", String.ofList layout.text⟩]⟩] ∧
      ∃ site ∈ sites css, site.rule.declarations = [⟨"x", String.ofList layout.text⟩] ∧
        site.valueRows css = [row] := by
  have hends : ∀ lexeme ∈ [(⟨.closing .curly, ['\x7d']⟩ : Lexeme)].head?,
      lexeme.value.endsValue := by
    simp [Token.endsValue]
  have hvalue : readComponents ['x'] false (row ++ [⟨.closing .curly, ['\x7d']⟩]) =
      .ok (layout.items.map Item.component, [⟨.closing .curly, ['\x7d']⟩]) :=
    readComponents_eq_ok_iff.mpr ⟨row, rfl, layout.valueRow, hends⟩
  have hdeclarations : readDeclarations (blockTokens (declarationRule row)) =
      .ok ([⟨"x", String.ofList layout.text⟩], [⟨.closing .curly, ['\x7d']⟩]) := by
    rw [← layout.valueText_components] at htext ⊢
    exact readDeclarations_of_ident rfl rfl hvalue htext (readDeclarations_of_closing rfl)
  have hrule : readRule (lex css.toList) =
      .ok (⟨["A"], [⟨"x", String.ofList layout.text⟩]⟩, []) := by
    rw [hlex]
    exact readRule_of_block rfl hdeclarations
  have hbegins : dropGaps (lex css.toList) = lex css.toList := by
    rw [hlex]
    rfl
  obtain ⟨hread, hsites⟩ := sites_of_readRule hbegins hrule
  refine ⟨hread, _, hsites ▸ List.mem_singleton_self _, rfl, ?_⟩
  have hsource : (css.toList.take css.length).drop 0 = css.toList := by
    rw [List.drop_zero, ← String.length_toList, List.take_length]
  have htokens : blockTokens (declarationRule row) =
      ⟨.ident ['x'], ['x']⟩ :: ⟨.colon, [':']⟩ :: (row ++ [⟨.closing .curly, ['\x7d']⟩]) := rfl
  have hcolon : (dropGaps (⟨.colon, [':']⟩ :: (row ++ [⟨.closing .curly, ['\x7d']⟩]))).tail =
      row ++ [⟨.closing .curly, ['\x7d']⟩] := rfl
  have hnone : valueRows [⟨.closing .curly, ['\x7d']⟩] = [] := by
    rw [valueRows_of_cons rfl]
  rw [Site.valueRows, Site.tokens, Site.source, hsource, hlex, htokens, valueRows_of_cons rfl]
  simp only [hcolon, layout.valueRow.takeValue_append hends, List.drop_left, hnone]

/-- A value of a group, a string and a word, with comments between them. -/
def mixedSheet : String := "A\x7bx:f(;)/**/ 'b'/**/c\x7d"

def mixedRules : List Rule := [⟨["A"], [⟨"x", "f(;) 'b'c"⟩]⟩]

def emptyComment : Lexeme := ⟨.comment, ['/', '*', '*', '/']⟩

theorem isGap_emptyComment : ∀ gap ∈ [emptyComment], gap.value.isGap := by
  decide

def mixedRow : List Lexeme :=
  [⟨.function ['f'], ['f', '(']⟩, ⟨.semicolon, [';']⟩, ⟨.closing .round, [')']⟩,
    emptyComment, ⟨.whitespace, [' ']⟩, ⟨.quoted ['b'], ['\'', 'b', '\'']⟩, emptyComment,
    ⟨.ident ['c'], ['c']⟩]

def mixedLayout : ValueLayout mixedRow :=
  .ofItems
    [.ofComponent
        [⟨.function ['f'], ['f', '(']⟩, ⟨.semicolon, [';']⟩, ⟨.closing .round, [')']⟩]
        (.group rfl (by decide) (.cons (by decide) (.last rfl))),
      ⟨[emptyComment, ⟨.whitespace, [' ']⟩], [⟨.quoted ['b'], ['\'', 'b', '\'']⟩],
        by decide, .token rfl⟩,
      ⟨[emptyComment], [⟨.ident ['c'], ['c']⟩], isGap_emptyComment, .token rfl⟩]

theorem lex_mixedSheet : lex mixedSheet.toList = declarationRule mixedRow := by
  decide +kernel

theorem values_of_readStylesheet_mixedSheet :
    readStylesheet mixedSheet = .ok mixedRules ∧
      ∃ site ∈ sites mixedSheet, site.valueRows mixedSheet = [mixedRow] ∧
        ∃ declaration ∈ site.rule.declarations,
          declaration.value = String.ofList mixedLayout.text := by
  obtain ⟨hread, site, hmem, -, hrows⟩ :=
    exists_site_of_layout mixedLayout lex_mixedSheet (by decide)
  obtain ⟨-, hvalues⟩ := values_of_readStylesheet hread
  have hdeclarations := hvalues site hmem
  rw [hrows, List.forall₂_cons_right_iff] at hdeclarations
  obtain ⟨declaration, others, ⟨-, -, hvalue⟩, -, hdeclared⟩ := hdeclarations
  refine ⟨hread, site, hmem, hrows, declaration, ?_, hvalue mixedLayout⟩
  rw [hdeclared]
  exact List.mem_cons_self

end Stylesheets

end ThemeSheet

import ThemeSheet.Proofs.Passages
import Mathlib.Data.List.Forall2

/-!
# Forbidden tokens inside of groups

A value must not hold a block, a broken string, a broken url or a bracket that
closes nothing.  Only the tokens outside of groups are looked at, though: a
group is skipped to the bracket that closes it.  So a value is accepted exactly
if its groups are closed and all that is forbidden in it is inside of them.
-/

namespace ThemeSheet

/-- The brackets that are open behind a row of tokens, innermost first. -/
def openBehind (stack : List Bracket) (row : List Lexeme) : List Bracket :=
  row.foldl (fun stack lexeme => lexeme.value.nest stack) stack

/-- Whether a token is forbidden in a value behind the given open brackets. -/
def Token.isForbidden (stack : List Bracket) : Token → Bool
  | opening .curly | badString _ | badUrl _ => true
  | closing bracket => stack.head? ≠ some bracket
  | _ => false

/-- The forbidden tokens of a row, each with the brackets that are open in front
of it. -/
def forbidden (stack : List Bracket) : List Lexeme → List (List Bracket × Lexeme)
  | [] => []
  | lexeme :: rest =>
      if lexeme.value.isForbidden stack then
        (stack, lexeme) :: forbidden (lexeme.value.nest stack) rest
      else forbidden (lexeme.value.nest stack) rest

/-- Whether a place with the given open brackets is inside of a group of a value:
the outermost of them is not that of a block. -/
def InsideGroup (stack : List Bracket) : Prop :=
  ∃ bracket, stack.getLast? = some bracket ∧ bracket ≠ .curly

/-- Whether the groups of a row are closed and hold all that is forbidden in it. -/
structure WellNested (row : List Lexeme) : Prop where
  closed : openBehind [] row = []
  inside : ∀ found ∈ forbidden [] row, InsideGroup found.1

section Rows

variable {stack : List Bracket} {row front back : List Lexeme} {lexeme : Lexeme}

theorem isForbidden_nil (token : Token) : token.isForbidden [] = token.isStray := by
  cases token with
  | opening bracket => cases bracket <;> rfl
  | _ => rfl

theorem openBehind_cons (stack : List Bracket) (lexeme : Lexeme) (row : List Lexeme) :
    openBehind stack (lexeme :: row) = openBehind (lexeme.value.nest stack) row := rfl

theorem openBehind_append (stack : List Bracket) (front back : List Lexeme) :
    openBehind stack (front ++ back) = openBehind (openBehind stack front) back :=
  List.foldl_append

theorem forbidden_append (stack : List Bracket) (front back : List Lexeme) :
    forbidden stack (front ++ back) =
      forbidden stack front ++ forbidden (openBehind stack front) back := by
  induction front generalizing stack with
  | nil => rfl
  | cons lexeme front ih =>
      rw [List.cons_append, forbidden, forbidden, ih, openBehind_cons]
      split <;> rfl

theorem forbidden_cons_of_not_isStray (hstray : lexeme.value.isStray = false)
    (row : List Lexeme) :
    forbidden [] (lexeme :: row) = forbidden (lexeme.value.nest []) row := by
  rw [forbidden, isForbidden_nil, if_neg (by simp [hstray])]

end Rows

/-! ## Inside of a group -/

section Groups

variable {token : Token} {bracket : Bracket} {stack : List Bracket}
variable {group lexemes : List Lexeme}

/-- Only what closes a group takes its bracket off the bottom of the stack. -/
theorem getLast?_nest (hstack : stack ≠ []) (hopen : token.nest stack ≠ []) :
    (token.nest stack).getLast? = stack.getLast? := by
  obtain ⟨top, below, rfl⟩ := List.exists_cons_of_ne_nil hstack
  unfold Token.nest at hopen ⊢
  split at hopen
  next closed hcloses =>
    split at hopen
    next hmatch =>
      rw [if_pos hmatch, List.tail_cons]
      rw [List.tail_cons] at hopen
      exact (List.getLast?_cons_of_ne_nil hopen).symm
    next hother => rw [if_neg hother]
  next hcloses => exact List.getLast?_append_of_ne_nil _ (List.cons_ne_nil _ _)

theorem Closes.openBehind_eq_nil (hcloses : Closes stack group) :
    openBehind stack group = [] := by
  induction hcloses with
  | last hclosed => rw [openBehind_cons, hclosed]; rfl
  | cons hopen hrow ih => rw [openBehind_cons, ih]

theorem Closes.getLast?_of_mem_forbidden (hcloses : Closes stack group)
    (hstack : stack ≠ []) :
    ∀ found ∈ forbidden stack group, found.1.getLast? = stack.getLast? := by
  induction hcloses with
  | last hclosed =>
      intro found hfound
      rw [forbidden, forbidden] at hfound
      split at hfound
      next =>
        obtain rfl := List.mem_singleton.mp hfound
        rfl
      next => cases hfound
  | cons hopen hrow ih =>
      -- the group goes on, so its own bracket is still the outermost
      have hlater := ih hopen
      rw [getLast?_nest hstack hopen] at hlater
      intro found hfound
      rw [forbidden] at hfound
      split at hfound
      next =>
        rcases List.mem_cons.mp hfound with rfl | hfound
        · rfl
        · exact hlater found hfound
      next => exact hlater found hfound

/-- A group that is not closed takes all that is left. -/
theorem takeValue_of_takeGroup_eq_none (htake : takeGroup stack lexemes = none)
    (hstack : stack ≠ []) :
    takeValue stack lexemes = lexemes ∧ openBehind stack lexemes ≠ [] := by
  induction lexemes generalizing stack with
  | nil => exact ⟨rfl, hstack⟩
  | cons lexeme rest ih =>
      simp only [takeGroup] at htake
      split at htake
      next => cases htake
      next hopen =>
        rw [Option.map_eq_none_iff] at htake
        obtain ⟨hvalue, hbehind⟩ := ih htake (by simpa using hopen)
        rw [takeValue, if_neg (fun h => hstack h.1), hvalue, openBehind_cons]
        exact ⟨rfl, hbehind⟩

end Groups

/-! ## Values -/

section Steps

variable {lexeme : Lexeme} {bracket : Bracket} {group row : List Lexeme}

theorem not_insideGroup_nil : ¬InsideGroup [] := by
  rintro ⟨bracket, hlast, -⟩
  cases hlast

theorem wellNested_nil : WellNested [] := ⟨rfl, by simp [forbidden]⟩

theorem not_wellNested_of_isStray (hstray : lexeme.value.isStray) :
    ¬WellNested (lexeme :: row) := by
  rintro ⟨-, hinside⟩
  rw [forbidden, isForbidden_nil, if_pos hstray] at hinside
  exact not_insideGroup_nil (hinside _ List.mem_cons_self)

theorem wellNested_cons_iff (hstray : lexeme.value.isStray = false)
    (hopens : lexeme.value.opens? = none) :
    WellNested (lexeme :: row) ↔ WellNested row := by
  have hnest := nest_nil_of_opens?_eq_none hopens
  constructor
  · rintro ⟨hclosed, hinside⟩
    rw [openBehind_cons, hnest] at hclosed
    rw [forbidden_cons_of_not_isStray hstray, hnest] at hinside
    exact ⟨hclosed, hinside⟩
  · rintro ⟨hclosed, hinside⟩
    refine ⟨?_, ?_⟩
    · rw [openBehind_cons, hnest, hclosed]
    · rw [forbidden_cons_of_not_isStray hstray, hnest]
      exact hinside

theorem isStray_eq_false_of_opens? (hopens : lexeme.value.opens? = some bracket)
    (hcurly : bracket ≠ .curly) : lexeme.value.isStray = false := by
  rw [Bool.eq_false_iff]
  exact fun hstray => hcurly ((classes_of_opens? hopens).2.2.mp hstray)

section Group

variable (hopens : lexeme.value.opens? = some bracket) (hcurly : bracket ≠ .curly)
variable (hgroup : Closes [bracket] group)

include hopens hgroup

theorem openBehind_group (row : List Lexeme) :
    openBehind [] (lexeme :: (group ++ row)) = openBehind [] row := by
  rw [openBehind_cons, nest_of_opens? hopens, openBehind_append, hgroup.openBehind_eq_nil]

theorem forbidden_group (row : List Lexeme) :
    forbidden [] (lexeme :: (group ++ row)) =
      forbidden [] (lexeme :: group) ++ forbidden [] row := by
  rw [← List.cons_append, forbidden_append]
  congr 2
  simpa [openBehind] using openBehind_group hopens hgroup []

include hcurly

theorem insideGroup_of_mem_forbidden :
    ∀ found ∈ forbidden [] (lexeme :: group), InsideGroup found.1 := by
  rw [forbidden_cons_of_not_isStray (isStray_eq_false_of_opens? hopens hcurly),
    nest_of_opens? hopens]
  intro found hfound
  have hlast := hgroup.getLast?_of_mem_forbidden (List.cons_ne_nil _ _) found hfound
  exact ⟨bracket, hlast, hcurly⟩

theorem wellNested_group_iff :
    WellNested (lexeme :: (group ++ row)) ↔ WellNested row := by
  constructor
  · rintro ⟨hclosed, hinside⟩
    rw [openBehind_group hopens hgroup] at hclosed
    rw [forbidden_group hopens hgroup, List.forall_mem_append] at hinside
    exact ⟨hclosed, hinside.2⟩
  · rintro ⟨hclosed, hinside⟩
    refine ⟨?_, ?_⟩
    · rw [openBehind_group hopens hgroup, hclosed]
    · rw [forbidden_group hopens hgroup, List.forall_mem_append]
      exact ⟨insideGroup_of_mem_forbidden hopens hcurly hgroup, hinside⟩

end Group

theorem takeValue_cons_of_not_endsValue (hends : ¬lexeme.value.endsValue)
    (rest : List Lexeme) :
    takeValue [] (lexeme :: rest) = lexeme :: takeValue (lexeme.value.nest []) rest :=
  if_neg (fun h => hends h.2)

end Steps

section Values

variable {property : List Char} {spaced : Bool} {row value : List Lexeme}
variable {components : List Component}

theorem ValueRow.wellNested (hrow : ValueRow spaced row components) : WellNested row := by
  induction hrow with
  | nil => exact wellNested_nil
  | gap hgap hrow ih =>
      exact (wellNested_cons_iff (classes_of_isGap hgap).2 (opens?_of_isGap hgap)).mpr ih
  | token halone hrow ih =>
      obtain ⟨-, hstray, -, hopens⟩ := standsAlone_iff.mp halone
      exact (wellNested_cons_iff hstray hopens).mpr ih
  | group hopens hcurly hgroup hrow ih =>
      exact (wellNested_group_iff hopens hcurly hgroup).mpr ih

/-- What is forbidden in a value is what is forbidden in its components. -/
theorem ValueRow.forbidden_eq (hrow : ValueRow spaced row components) :
    forbidden [] row =
      components.flatMap (fun component => forbidden [] component.lexemes) := by
  induction hrow with
  | nil => rfl
  | gap hgap hrow ih =>
      rw [forbidden_cons_of_not_isStray (classes_of_isGap hgap).2,
        nest_nil_of_opens?_eq_none (opens?_of_isGap hgap), ih]
  | token halone hrow ih =>
      obtain ⟨-, hstray, -, hopens⟩ := standsAlone_iff.mp halone
      rw [forbidden_cons_of_not_isStray hstray, nest_nil_of_opens?_eq_none hopens, ih,
        List.flatMap_cons, forbidden_cons_of_not_isStray hstray]
      rfl
  | group hopens hcurly hgroup hrow ih =>
      rw [forbidden_group hopens hgroup, ih, List.flatMap_cons]

/-- A value is read exactly if it is well nested, whatever its groups hold. -/
theorem exists_readComponents_iff :
    (∃ components left, readComponents property spaced value = .ok (components, left)) ↔
      WellNested (takeValue [] value) := by
  constructor
  · rintro ⟨components, left, hread⟩
    obtain ⟨row, rfl, hrow, hleft⟩ := readComponents_eq_ok_iff.mp hread
    rw [hrow.takeValue_append hleft]
    exact hrow.wellNested
  · intro hnested
    -- what the reader takes in a step, `takeValue` takes as well
    fun_induction readComponents property spaced value with
    | case1 | case2 => exact ⟨_, _, rfl⟩
    | case3 spaced lexeme rest hends hstray =>
        rw [takeValue_cons_of_not_endsValue hends] at hnested
        exact (not_wellNested_of_isStray hstray hnested).elim
    | case4 spaced lexeme rest hends hstray hgap ih =>
        have hopens := opens?_of_isGap hgap
        rw [takeValue_cons_of_not_endsValue hends, nest_nil_of_opens?_eq_none hopens,
          wellNested_cons_iff (by simpa using hstray) hopens] at hnested
        exact ih hnested
    | case5 spaced lexeme rest hends hstray hgap hopens ih =>
        rw [takeValue_cons_of_not_endsValue hends, nest_nil_of_opens?_eq_none hopens,
          wellNested_cons_iff (by simpa using hstray) hopens] at hnested
        obtain ⟨components, left, hread⟩ := ih hnested
        rw [hread]
        exact ⟨_, _, rfl⟩
    | case6 spaced lexeme rest hends hstray hgap bracket hopens hgroup =>
        obtain ⟨hvalue, hopen⟩ :=
          takeValue_of_takeGroup_eq_none hgroup (List.cons_ne_nil _ _)
        have hclosed := hnested.closed
        rw [takeValue_cons_of_not_endsValue hends, nest_of_opens? hopens, hvalue,
          openBehind_cons, nest_of_opens? hopens] at hclosed
        exact (hopen hclosed).elim
    | case7 spaced lexeme rest hends hstray hgap bracket hopens group after hgroup ih =>
        obtain ⟨rfl, hcloses⟩ := takeGroup_eq_some_iff.mp hgroup
        have hcurly : bracket ≠ .curly :=
          fun h => hstray ((classes_of_opens? hopens).2.2.mpr h)
        rw [takeValue_cons_of_not_endsValue hends, nest_of_opens? hopens,
          takeValue_append_of_closes hcloses (List.cons_ne_nil _ _),
          wellNested_group_iff hopens hcurly hcloses] at hnested
        obtain ⟨components, left, hread⟩ := ih hnested
        rw [hread]
        exact ⟨_, _, rfl⟩

end Values

/-! ## Stylesheets -/

/-- The values of an accepted stylesheet are the values that are well nested:
what is forbidden is kept out of them, but not out of their groups. -/
theorem wellNested_of_readStylesheet {css : String} {rules : List Rule}
    (hread : readStylesheet css = .ok rules) :
    (sites css).map (·.rule) = rules ∧
    (∀ site ∈ sites css, site.tokens css <:+: lex css.toList ∧
      List.Forall₂ (fun declaration row => WellNested row ∧
        ∃ components, ValueRow false row components ∧
          declaration.value = String.ofList (valueText components) ∧
          forbidden [] row =
            components.flatMap (fun component => forbidden [] component.lexemes))
        site.rule.declarations (site.valueRows css)) ∧
    ∀ property value,
      (∃ components left, readComponents property false value = .ok (components, left)) ↔
        WellNested (takeValue [] value) := by
  refine ⟨map_rule_sites hread, ?_, fun _ _ => exists_readComponents_iff⟩
  intro site hmem
  refine ⟨(isIn_isInfix_of_mem_sites hmem).2, ?_⟩
  apply (values_of_mem_sites hmem).imp
  rintro declaration row ⟨components, hrow, hvalue⟩
  exact ⟨hrow.wellNested, components, hrow, hvalue, hrow.forbidden_eq⟩

/-- A block in a group, and in the block a bracket that closes nothing. -/
def groupedSheet : String := "A\x7bx:f(\x7b]\x7d)\x7d"

def groupedRules : List Rule := [⟨["A"], [⟨"x", "f(\x7b]\x7d)"⟩]⟩]

/-- The tokens of the one value. -/
def groupedRow : List Lexeme :=
  [⟨.function ['f'], ['f', '(']⟩, ⟨.opening .curly, ['\x7b']⟩, ⟨.closing .square, [']']⟩,
    ⟨.closing .curly, ['\x7d']⟩, ⟨.closing .round, [')']⟩]

def groupedTokens : List Lexeme :=
  [⟨.ident ['A'], ['A']⟩, ⟨.opening .curly, ['\x7b']⟩, ⟨.ident ['x'], ['x']⟩,
    ⟨.colon, [':']⟩] ++ groupedRow ++ [⟨.closing .curly, ['\x7d']⟩]

theorem lex_groupedSheet : lex groupedSheet.toList = groupedTokens := by
  decide +kernel

theorem readRule_groupedSheet :
    readRule (lex groupedSheet.toList) =
      .ok (⟨["A"], [⟨"x", "f(\x7b]\x7d)"⟩]⟩, []) := by
  have hgroup : takeGroup [.round] groupedRow.tail = some (groupedRow.tail, []) := rfl
  have hrow : ValueRow false groupedRow [⟨false, groupedRow⟩] :=
    .group rfl (by decide) (takeGroup_eq_some_iff.mp hgroup).2 .nil
  have hvalue : readComponents ['x'] false
      (groupedRow ++ [⟨.closing .curly, ['\x7d']⟩]) =
      .ok ([⟨false, groupedRow⟩], [⟨.closing .curly, ['\x7d']⟩]) :=
    readComponents_eq_ok_iff.mpr ⟨groupedRow, rfl, hrow, by simp [Token.endsValue]⟩
  have hdeclarations : readDeclarations (blockTokens groupedTokens) =
      .ok ([⟨"x", "f(\x7b]\x7d)"⟩], [⟨.closing .curly, ['\x7d']⟩]) :=
    readDeclarations_of_ident rfl rfl hvalue (by decide) (readDeclarations_of_closing rfl)
  rw [lex_groupedSheet]
  exact readRule_of_block rfl hdeclarations

theorem begins_groupedSheet :
    dropGaps (lex groupedSheet.toList) = lex groupedSheet.toList := by
  rw [lex_groupedSheet]
  rfl

theorem readStylesheet_groupedSheet : readStylesheet groupedSheet = .ok groupedRules :=
  (sites_of_readRule begins_groupedSheet readRule_groupedSheet).1

theorem valueRows_groupedSheet :
    ∃ site ∈ sites groupedSheet, site.valueRows groupedSheet = [groupedRow] := by
  rw [(sites_of_readRule begins_groupedSheet readRule_groupedSheet).2]
  exact ⟨_, List.mem_singleton_self _, by decide +kernel⟩

/-- The block and the bracket are accepted, and both are forbidden. -/
theorem forbidden_groupedSheet :
    readStylesheet groupedSheet = .ok groupedRules ∧
      ∃ site ∈ sites groupedSheet, ∃ row ∈ site.valueRows groupedSheet,
        forbidden [] row =
          [([.round], ⟨.opening .curly, ['\x7b']⟩),
            ([.curly, .round], ⟨.closing .square, [']']⟩)] := by
  obtain ⟨site, hmem, hrows⟩ := valueRows_groupedSheet
  refine ⟨readStylesheet_groupedSheet, site, hmem, groupedRow, ?_, rfl⟩
  rw [hrows]
  exact List.mem_singleton_self _

/-- The same block is refused where it stands outside of a group. -/
theorem wellNested_of_readStylesheet_groupedSheet :
    readStylesheet groupedSheet = .ok groupedRules ∧ WellNested groupedRow ∧
      ¬∃ components left, readComponents ['x'] false groupedRow.tail =
        .ok (components, left) := by
  obtain ⟨-, hsites, hvalues⟩ := wellNested_of_readStylesheet readStylesheet_groupedSheet
  obtain ⟨site, hmem, hrows⟩ := valueRows_groupedSheet
  have hdeclarations := (hsites site hmem).2
  rw [hrows, List.forall₂_cons_right_iff] at hdeclarations
  obtain ⟨declaration, others, ⟨hnested, -⟩, -, -⟩ := hdeclarations
  refine ⟨readStylesheet_groupedSheet, hnested, ?_⟩
  rw [hvalues]
  exact not_wellNested_of_isStray rfl

end ThemeSheet

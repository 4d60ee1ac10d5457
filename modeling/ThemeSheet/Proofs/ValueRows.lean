import ThemeSheet.Proofs.Locality

/-!
# Rows of value tokens

What is read as a value can be told from the tokens alone: a row of gaps, of
tokens that stand for themselves, and of groups.  A group goes from an opening
bracket to the first token behind which no bracket is open, and it may hold
anything in between.
-/

namespace ThemeSheet

/-- Whether a row of tokens closes the brackets that are open in front of it, and
does so with its last token. -/
inductive Closes : List Bracket → List Lexeme → Prop where
  | last {stack : List Bracket} {lexeme : Lexeme}
      (hclosed : lexeme.value.nest stack = []) : Closes stack [lexeme]
  | cons {stack : List Bracket} {lexeme : Lexeme} {row : List Lexeme}
      (hopen : lexeme.value.nest stack ≠ []) (hrow : Closes (lexeme.value.nest stack) row) :
      Closes stack (lexeme :: row)

theorem takeGroup_eq_some_iff {stack : List Bracket} {lexemes group left : List Lexeme} :
    takeGroup stack lexemes = some (group, left) ↔
      lexemes = group ++ left ∧ Closes stack group := by
  constructor
  · intro htake
    refine ⟨(append_of_takeGroup htake).symm, ?_⟩
    induction lexemes generalizing stack group with
    | nil => cases htake
    | cons lexeme rest ih =>
        simp only [takeGroup] at htake
        split at htake
        next hclosed =>
          cases htake
          exact .last (List.isEmpty_iff.mp hclosed)
        next hopen =>
          obtain ⟨⟨inner, _⟩, hinner, heq⟩ := Option.map_eq_some_iff.mp htake
          cases heq
          exact .cons (by simpa using hopen) (ih hinner)
  · rintro ⟨rfl, hcloses⟩
    induction hcloses with
    | last hclosed =>
        simp only [List.singleton_append, takeGroup, hclosed]
        rfl
    | cons hopen hrow ih =>
        simp only [List.cons_append, takeGroup, ih]
        rw [if_neg (by simpa using hopen)]
        rfl

namespace Token

/-- Whether a token is a component of a value by itself. -/
def standsAlone (token : Token) : Bool :=
  !token.endsValue && !token.isStray && !token.isGap && token.opens?.isNone

end Token

/-- The tokens of a value and the components they are read as.  The flag tells
whether whitespace stands in front of them. -/
inductive ValueRow : Bool → List Lexeme → List Component → Prop where
  | nil {spaced : Bool} : ValueRow spaced [] []
  | gap {spaced : Bool} {lexeme : Lexeme} {row : List Lexeme}
      {components : List Component} (hgap : lexeme.value.isGap)
      (hrow : ValueRow (spaced || lexeme.value = .whitespace) row components) :
      ValueRow spaced (lexeme :: row) components
  | token {spaced : Bool} {lexeme : Lexeme} {row : List Lexeme}
      {components : List Component} (halone : lexeme.value.standsAlone)
      (hrow : ValueRow false row components) :
      ValueRow spaced (lexeme :: row) (⟨spaced, [lexeme]⟩ :: components)
  | group {spaced : Bool} {lexeme : Lexeme} {group row : List Lexeme}
      {components : List Component} {bracket : Bracket}
      (hopens : lexeme.value.opens? = some bracket) (hcurly : bracket ≠ .curly)
      (hgroup : Closes [bracket] group) (hrow : ValueRow false row components) :
      ValueRow spaced (lexeme :: (group ++ row))
        (⟨spaced, lexeme :: group⟩ :: components)

section Tokens

variable {token : Token} {bracket : Bracket}

theorem standsAlone_iff :
    token.standsAlone ↔ token.endsValue = false ∧ token.isStray = false ∧
      token.isGap = false ∧ token.opens? = none := by
  simp [Token.standsAlone, and_assoc]

theorem classes_of_isGap (hgap : token.isGap) :
    token.endsValue = false ∧ token.isStray = false := by
  cases token <;> simp_all [Token.isGap, Token.endsValue, Token.isStray]

/-- Outside of groups a curly bracket is stray, and no other that opens is. -/
theorem classes_of_opens? (hopens : token.opens? = some bracket) :
    token.endsValue = false ∧ token.isGap = false ∧
      (token.isStray = true ↔ bracket = .curly) := by
  cases token with
  | opening found =>
      cases hopens
      cases bracket <;> simp [Token.endsValue, Token.isGap, Token.isStray]
  | function name =>
      cases hopens
      simp [Token.endsValue, Token.isGap, Token.isStray]
  | _ => cases hopens

end Tokens

/-- A value is read exactly from a row of value tokens in front of what ends it. -/
theorem readComponents_eq_ok_iff
    {property : List Char} {spaced : Bool} {lexemes left : List Lexeme}
    {components : List Component} :
    readComponents property spaced lexemes = .ok (components, left) ↔
      ∃ row, lexemes = row ++ left ∧ ValueRow spaced row components ∧
        ∀ lexeme ∈ left.head?, lexeme.value.endsValue := by
  constructor
  · intro hread
    fun_induction readComponents property spaced lexemes generalizing components with
    | case1 spaced =>
        cases hread
        exact ⟨[], rfl, .nil, by simp⟩
    | case2 spaced lexeme rest hends =>
        cases hread
        exact ⟨[], rfl, .nil, by simpa using hends⟩
    | case3 => cases hread
    | case4 spaced lexeme rest hends hstray hgap ih =>
        obtain ⟨row, rfl, hrow, hleft⟩ := ih hread
        exact ⟨lexeme :: row, rfl, .gap hgap hrow, hleft⟩
    | case5 spaced lexeme rest hends hstray hgap hopens ih =>
        obtain ⟨⟨others, after⟩, hrest, heq⟩ := exists_of_map_eq_ok hread
        cases heq
        obtain ⟨row, rfl, hrow, hleft⟩ := ih hrest
        have halone : lexeme.value.standsAlone :=
          standsAlone_iff.mpr ⟨by simpa using hends, by simpa using hstray,
            by simpa using hgap, hopens⟩
        exact ⟨lexeme :: row, rfl, .token halone hrow, hleft⟩
    | case6 => cases hread
    | case7 spaced lexeme rest hends hstray hgap bracket hopens group after hgroup ih =>
        obtain ⟨⟨others, behind⟩, hrest, heq⟩ := exists_of_map_eq_ok hread
        cases heq
        obtain ⟨row, rfl, hrow, hleft⟩ := ih hrest
        obtain ⟨rfl, hcloses⟩ := takeGroup_eq_some_iff.mp hgroup
        have hcurly : bracket ≠ .curly := by
          rintro rfl
          exact hstray ((classes_of_opens? hopens).2.2.mpr rfl)
        exact ⟨lexeme :: (group ++ row), by simp, .group hopens hcurly hcloses hrow, hleft⟩
  · rintro ⟨row, rfl, hrow, hleft⟩
    induction hrow with
    | nil =>
        cases left with
        | nil => rw [List.append_nil, readComponents]
        | cons lexeme rest =>
            rw [List.nil_append, readComponents, if_pos (hleft lexeme rfl)]
    | @gap spaced lexeme row components hgap hrow ih =>
        obtain ⟨hends, hstray⟩ := classes_of_isGap hgap
        rw [List.cons_append, readComponents, if_neg (by simp [hends]),
          if_neg (by simp [hstray]), if_pos hgap, ih]
    | @token spaced lexeme row components halone hrow ih =>
        obtain ⟨hends, hstray, hgap, hopens⟩ := standsAlone_iff.mp halone
        rw [List.cons_append, readComponents, if_neg (by simp [hends]),
          if_neg (by simp [hstray]), if_neg (by simp [hgap]), hopens, ih]
        rfl
    | @group spaced lexeme group row components bracket hopens hcurly hgroup hrow ih =>
        obtain ⟨hends, hgap, hstray⟩ := classes_of_opens? hopens
        rw [List.cons_append, List.append_assoc]
        exact readComponents_of_group (by simp [hends]) (fun h => hcurly (hstray.mp h))
          (by simp [hgap]) hopens (takeGroup_eq_some_iff.mpr ⟨rfl, hgroup⟩) ih

/-! ## Where a value ends -/

/-- The tokens in front of the first that ends a value outside of all brackets. -/
def takeValue (stack : List Bracket) : List Lexeme → List Lexeme
  | [] => []
  | lexeme :: rest =>
      if stack = [] ∧ lexeme.value.endsValue then []
      else lexeme :: takeValue (lexeme.value.nest stack) rest

section Ends

variable {token : Token} {bracket : Bracket} {stack : List Bracket}
variable {group left : List Lexeme}

theorem nest_of_opens? (hopens : token.opens? = some bracket) :
    token.nest stack = bracket :: stack := by
  cases token with
  | closing found => cases hopens
  | _ => simp [Token.nest, Token.closes?, hopens]

theorem nest_nil_of_opens?_eq_none (hopens : token.opens? = none) : token.nest [] = [] := by
  cases token with
  | closing found => rfl
  | _ => simp [Token.nest, Token.closes?, hopens]

theorem opens?_of_isGap (hgap : token.isGap) : token.opens? = none := by
  cases token <;> simp_all [Token.isGap, Token.opens?]

theorem takeValue_append_of_closes (hcloses : Closes stack group) (hstack : stack ≠ [])
    (rest : List Lexeme) : takeValue stack (group ++ rest) = group ++ takeValue [] rest := by
  induction hcloses with
  | last hclosed =>
      rw [List.singleton_append, takeValue, if_neg (fun h => hstack h.1), hclosed,
        List.singleton_append]
  | cons hopen hrow ih =>
      rw [List.cons_append, takeValue, if_neg (fun h => hstack h.1), ih hopen,
        List.cons_append]

/-- The tokens of a value are told from what ends it without reading them. -/
theorem ValueRow.takeValue_append {spaced : Bool} {row : List Lexeme}
    {components : List Component} (hrow : ValueRow spaced row components)
    (hleft : ∀ lexeme ∈ left.head?, lexeme.value.endsValue) :
    takeValue [] (row ++ left) = row := by
  induction hrow with
  | nil =>
      cases left with
      | nil => rfl
      | cons lexeme rest => exact if_pos ⟨rfl, hleft lexeme rfl⟩
  | gap hgap hrow ih =>
      rw [List.cons_append, takeValue, if_neg (by simp [(classes_of_isGap hgap).1]),
        nest_nil_of_opens?_eq_none (opens?_of_isGap hgap), ih]
  | token halone hrow ih =>
      obtain ⟨hends, -, -, hopens⟩ := standsAlone_iff.mp halone
      rw [List.cons_append, takeValue, if_neg (by simp [hends]),
        nest_nil_of_opens?_eq_none hopens, ih]
  | group hopens hcurly hgroup hrow ih =>
      rw [List.cons_append, List.append_assoc, takeValue,
        if_neg (by simp [(classes_of_opens? hopens).1]), nest_of_opens? hopens,
        takeValue_append_of_closes hgroup (List.cons_ne_nil _ _), ih]

end Ends

end ThemeSheet

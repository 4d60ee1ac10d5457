import ThemeSheet.Proofs.Locations
import ThemeSheet.Proofs.ValueLayout

/-!
# Where errors point

An error arises at a token that is no gap: one that is refused, one that opens what is
never closed, or the name of a declaration without a value.  Or it arises at the end of the
text.  It points there, with two exceptions: where a colon is missing it points behind the
name, and in a selector it points in front of the comments before the token.
-/

namespace ThemeSheet

/-- Whether an error is one about the first of some tokens, or about their end. -/
def SyntaxError.ArisesAt : SyntaxError → List Lexeme → Prop
  | expectedBlock, [] | emptySelector, [] | expectedColon _, [] => True
  | unterminatedBlock, first :: rest =>
      first.value = .opening .curly ∧ takeGroup [.curly] rest = none
  | emptySelector, first :: _ => first.value = .comma ∨ first.value = .opening .curly
  | unexpectedInSelector token, first :: _ =>
      first.value = token ∧ token.isInSelector = false ∧ token ≠ .comma ∧
        token ≠ .opening .curly
  | invalidPropertyName token, first :: _ =>
      first.value = token ∧ token.isGap = false ∧ (∀ name, token ≠ .ident name) ∧
        token ≠ .semicolon ∧ token ≠ .closing .curly
  | expectedColon _, first :: _ => first.value.isGap = false ∧ first.value ≠ .colon
  | missingValue property, first :: _ => first.value = .ident property
  | unexpectedInValue _ token, first :: _ => first.value = token ∧ token.isStray
  | unclosedGroup _ bracket, first :: rest =>
      first.value.opens? = some bracket ∧ takeGroup [bracket] rest = none
  | _, _ => False

/-- Whether an error points in front of some gaps instead of behind them: those behind a
name without a colon, and comments in front of a token of a selector. -/
def SyntaxError.Overlooks (cause : SyntaxError) (front gaps back : List Lexeme) : Prop :=
  match cause with
  | expectedColon property =>
      ∃ name, front.getLast? = some name ∧ name.value = .ident property
  | emptySelector | unexpectedInSelector _ =>
      (∀ gap ∈ gaps, gap.value = .comment) ∧
        ∃ first rest, back = first :: rest ∧ first.value ≠ .opening .curly
  | _ => False

/-- Where a refusal points among some tokens. -/
structure Refusal.IsPlaced (refusal : Refusal) (front gaps back : List Lexeme) : Prop where
  rest_eq : refusal.rest = gaps ++ back
  isGap : ∀ gap ∈ gaps, gap.value.isGap
  arisesAt : refusal.cause.ArisesAt back
  overlooks : gaps = [] ∨ refusal.cause.Overlooks front gaps back

def Refusal.IsIn (refusal : Refusal) (lexemes : List Lexeme) : Prop :=
  ∃ front gaps back, lexemes = front ++ (gaps ++ back) ∧ refusal.IsPlaced front gaps back

section Refusals

variable {cause : SyntaxError} {refusal : Refusal} {lexemes others back rest : List Lexeme}
variable {first : Lexeme}

theorem Refusal.IsIn.of_isSuffix (hin : refusal.IsIn lexemes) (hsuffix : lexemes <:+ others) :
    refusal.IsIn others := by
  obtain ⟨front, gaps, back, rfl, hplaced⟩ := hin
  obtain ⟨before, rfl⟩ := hsuffix
  refine ⟨before ++ front, gaps, back, by simp, { hplaced with overlooks := ?_ }⟩
  rcases hplaced.overlooks with hgaps | hover
  · exact .inl hgaps
  · right
    unfold SyntaxError.Overlooks at hover ⊢
    split at hover
    next property =>
      obtain ⟨name, hlast, hvalue⟩ := hover
      exact ⟨name, by rw [List.getLast?_append, hlast, Option.some_or], hvalue⟩
    next => exact hover
    next => exact hover
    next => exact hover

end Refusals

section Readers

variable {selector : List Char} {property : List Char} {spaced : Bool}
variable {mark comments lexemes : List Lexeme} {refusal : Refusal}

theorem eq_of_closeSelector_eq_error
    (hclose : closeSelector selector mark = .error refusal) :
    refusal = ⟨.emptySelector, mark⟩ := by
  unfold closeSelector at hclose
  split at hclose
  next =>
    cases hclose
    rfl
  next => cases hclose

end Readers

/-! ## Blocks that are not closed -/

section Blocks

variable {lexeme : Lexeme} {lexemes row rest group : List Lexeme} {stack below : List Bracket}
variable {spaced : Bool} {components : List Component} {declarations : List Declaration}

/-- A token that neither opens nor closes a group does not end one. -/
theorem takeGroup_cons_of_nest (hnest : lexeme.value.nest stack = stack) (hstack : stack ≠ []) :
    takeGroup stack (lexeme :: rest) =
      (takeGroup stack rest).map (fun (group, left) => (lexeme :: group, left)) := by
  simp only [takeGroup, hnest]
  rw [if_neg (by simpa using hstack)]

theorem nest_append {token : Token} (hstack : stack ≠ []) (below : List Bracket) :
    token.nest (stack ++ below) = token.nest stack ++ below := by
  obtain ⟨top, under, rfl⟩ := List.exists_cons_of_ne_nil hstack
  unfold Token.nest
  split
  next bracket hcloses =>
    by_cases htop : top = bracket <;> simp [htop]
  next => rw [List.append_assoc]

/-- Brackets are closed from the innermost one on. -/
theorem takeGroup_append_stack (hstack : stack ≠ []) (hbelow : below ≠ [])
    (lexemes : List Lexeme) :
    takeGroup (stack ++ below) lexemes =
      (takeGroup stack lexemes).bind (fun (inner, left) =>
        (takeGroup below left).map (fun (outer, after) => (inner ++ outer, after))) := by
  induction lexemes generalizing stack with
  | nil => rfl
  | cons lexeme rest ih =>
      simp only [takeGroup, nest_append hstack]
      by_cases hopen : lexeme.value.nest stack = []
      · simp only [hopen, List.nil_append, List.isEmpty_nil, if_true]
        rw [if_neg (by simpa using hbelow)]
        rfl
      · rw [if_neg (by simp [hopen]), if_neg (by simp [hopen]), ih hopen]
        cases takeGroup (lexeme.value.nest stack) rest with
        | none => rfl
        | some found =>
            simp only [Option.map_some, Option.bind_some, Option.map_map]
            rfl

end Blocks

/-! ## Stylesheets -/

section Stylesheets

variable {lexemes : List Lexeme} {refusal : Refusal}

theorem isSuffix_of_readRule {rule : Rule} {left : List Lexeme}
    (hread : readRule lexemes = .ok (rule, left)) : left <:+ lexemes := by
  obtain ⟨brace, body, closing, hselectors, hdeclarations⟩ := exists_block_of_readRule hread
  have hbody : body <:+ lexemes :=
    (List.suffix_cons brace body).trans (isSuffix_of_readSelectors hselectors)
  have hleft : left <:+ body :=
    (List.suffix_cons closing left).trans (isSuffix_of_readDeclarations hdeclarations)
  exact hleft.trans hbody

/-- The location of the first of some tokens, or of the end. -/
theorem locate_of_lex {text : List Char} {front rest : List Lexeme}
    (hlex : lex text = front ++ rest) :
    Fault.locate text rest = Location.start.past (Span.sources front) := by
  have hlength : text.length - Span.width rest = (Span.sources front).length := by
    rw [eq_sources_append hlex, List.length_append, Span.width, Nat.add_sub_cancel]
  rw [Fault.locate, hlength, eq_sources_append hlex, List.take_left]

section Places

variable {css : String} {text : List Char} {front gaps back row : List Lexeme}
variable {lexeme gap : Lexeme} {cause : SyntaxError}

end Places

end Stylesheets

end ThemeSheet

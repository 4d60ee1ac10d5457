import ThemeSheet.Rule.SyntaxError
import ThemeSheet.Text.Blank

/-!
# Selector lists

The selectors of a rule stand before its block, separated by commas.  Their
text is that of the tokens, with one space for each stretch of whitespace.
-/

namespace ThemeSheet

/-- What a token adds to a selector, if it may stand there. -/
def Token.selectorText? : Token → Option (List Char)
  | ident name => some name
  | idHash name => some ('#' :: name)
  | hash name => some ('#' :: name)
  | delim c => if c = '.' ∨ c = '*' then some [c] else none
  | colon => some [':']
  | _ => none

def addGap (selector : List Char) : List Char :=
  if selector.isEmpty ∨ selector.getLast? = some ' ' then selector
  else selector ++ [' ']

def closeSelector (selector : List Char) (mark : List Lexeme) :
    Except Refusal String :=
  if (trimBlank selector).isEmpty then refuse .emptySelector mark
  else .ok (String.ofList (trimBlank selector))

/-- Reads the selectors before a block or the end, which is left unread.
`selector` is the text of the selector so far.  An error at a token points
before the comments in front of it, at `mark`. -/
def readSelectors (selector : List Char) (mark : List Lexeme) :
    List Lexeme → Except Refusal (List String × List Lexeme)
  | [] => (closeSelector selector []).map (fun last => ([last], []))
  | lexeme :: rest =>
      match lexeme.value with
      | .opening .curly =>
          (closeSelector selector (lexeme :: rest)).map
            (fun last => ([last], lexeme :: rest))
      | .comment => readSelectors selector mark rest
      | .whitespace => readSelectors (addGap selector) rest rest
      | .comma => do
          let closed ← closeSelector selector mark
          let (others, left) ← readSelectors [] rest rest
          return (closed :: others, left)
      | token =>
          match token.selectorText? with
          | some text => readSelectors (selector ++ text) rest rest
          | none => refuse (.unexpectedInSelector token) mark

theorem isSuffix_of_readSelectors
    {selector : List Char} {mark lexemes left : List Lexeme}
    {selectors : List String}
    (hread : readSelectors selector mark lexemes = .ok (selectors, left)) :
    left <:+ lexemes := by
  fun_induction readSelectors selector mark lexemes
    generalizing selectors with
  | case1 selector mark =>
      cases hclose : closeSelector selector [] <;>
        simp_all [Except.map]
  | case2 selector mark lexeme rest hvalue =>
      cases hclose : closeSelector selector (lexeme :: rest) <;>
        simp_all [Except.map]
  | case3 selector mark lexeme rest hvalue ih =>
      exact (ih hread).trans (List.suffix_cons lexeme rest)
  | case4 selector mark lexeme rest hvalue ih =>
      exact (ih hread).trans (List.suffix_cons lexeme rest)
  | case5 selector mark lexeme rest hvalue ih =>
      cases hclose : closeSelector selector mark with
      | error refusal => simp [hclose, bind, Except.bind] at hread
      | ok closed =>
          cases hrest : readSelectors [] rest rest with
          | error refusal =>
              simp [hclose, hrest, bind, Except.bind] at hread
          | ok result =>
              simp only [hclose, hrest, bind, Except.bind, pure, Except.pure,
                Except.ok.injEq, Prod.mk.injEq] at hread
              obtain ⟨-, rfl⟩ := hread
              exact (ih hrest).trans (List.suffix_cons lexeme rest)
  | case6 selector mark lexeme rest _ _ _ _ text htext ih =>
      exact (ih hread).trans (List.suffix_cons lexeme rest)
  | case7 => simp [refuse] at hread

end ThemeSheet

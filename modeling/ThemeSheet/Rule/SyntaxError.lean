import ThemeSheet.Token.Written

/-!
# Syntax errors

The first error ends the reading of a stylesheet.  Until the end of it, an
error points at the tokens that were left; only then it gets a location.
-/

namespace ThemeSheet

inductive SyntaxError where
  | expectedBlock
  | unterminatedBlock
  | emptySelector
  | unexpectedInSelector (token : Token)
  | invalidPropertyName (token : Token)
  | expectedColon (property : List Char)
  | missingValue (property : List Char)
  | unexpectedInValue (property : List Char) (token : Token)
  | unclosedGroup (property : List Char) (bracket : Bracket)
deriving DecidableEq, Repr

def quote (text : List Char) : String := "'" ++ String.ofList text ++ "'"

def SyntaxError.message : SyntaxError → String
  | expectedBlock => "Expected " ++ quote [Bracket.curly.opening] ++ " after selector"
  | unterminatedBlock =>
      "Unterminated block, expected " ++ quote [Bracket.curly.closing]
  | emptySelector => "Empty selector"
  | unexpectedInSelector token =>
      "Unexpected " ++ quote token.written ++ " in selector"
  | invalidPropertyName token =>
      "Invalid property name " ++ quote token.written
  | expectedColon property => "Expected ':' after property " ++ quote property
  | missingValue property => "Missing value for property " ++ quote property
  | unexpectedInValue property token =>
      "Unexpected " ++ quote token.written ++ " in value of property " ++
        quote property
  | unclosedGroup property bracket =>
      "Missing " ++ quote [bracket.closing] ++ " in value of property " ++
        quote property

/-- An error, and the lexemes from the one it points at to the end. -/
structure Refusal where
  cause : SyntaxError
  rest : List Lexeme
deriving DecidableEq, Repr

def refuse (cause : SyntaxError) (rest : List Lexeme) : Except Refusal α :=
  .error ⟨cause, rest⟩

end ThemeSheet

import ThemeSheet.Rule.Basic
import ThemeSheet.Token.Written

/-!
# The written form of rules

Rules are written with commas between their selectors and with each value as a
quoted string.  Names and selectors are written as they are, so they read back
only if they are made of words, which need no escapes.
-/

namespace ThemeSheet

def Declaration.written (declaration : Declaration) : List Char :=
  declaration.name.toList ++ ':' :: writeString declaration.value.toList ++ [';']

def Rule.written (rule : Rule) : List Char :=
  [','].intercalate (rule.selectors.map String.toList) ++
    '\x7b' :: rule.declarations.flatMap Declaration.written ++ ['\x7d']

def writeStylesheet (rules : List Rule) : String :=
  String.ofList (rules.flatMap Rule.written)

/-! ## Words and what selectors are made of -/

def isWordStart (c : Char) : Bool := c.isAlpha || c == '_'

def isWordChar (c : Char) : Bool := isWordStart c || c.isDigit || c == '-'

/-- Letters, digits, underscores and hyphens, with a letter or an underscore in
front. -/
structure Word where
  first : Char
  rest : List Char
  isWordStart_first : isWordStart first
  all_isWordChar : rest.all isWordChar

def Word.chars (word : Word) : List Char := word.first :: word.rest

inductive Piece where
  | element (name : Word)
  | id (name : Word)
  | className (name : Word)
  | star
  | colon

def Piece.chars : Piece → List Char
  | element name => name.chars
  | id name => '#' :: name.chars
  | className name => '.' :: name.chars
  | star => ['*']
  | colon => [':']

def piecesText (pieces : List Piece) : List Char := pieces.flatMap Piece.chars

def segmentsText (segments : List (List Piece)) : List Char :=
  [' '].intercalate (segments.map piecesText)

/-! ## Rules that read back -/

/-- A selector of segments with single spaces between them. -/
def IsPlainSelector (selector : String) : Prop :=
  ∃ segments : List (List Piece), segments ≠ [] ∧ [] ∉ segments ∧
    selector.toList = segmentsText segments

structure Declaration.IsPlain (declaration : Declaration) : Prop where
  name_eq : ∃ word : Word, declaration.name.toList = word.chars
  value_ne_empty : declaration.value ≠ ""
  null_not_mem : '\x00' ∉ declaration.value.toList

structure Rule.IsPlain (rule : Rule) : Prop where
  selectors_ne_nil : rule.selectors ≠ []
  selectors : ∀ selector ∈ rule.selectors, IsPlainSelector selector
  declarations : ∀ declaration ∈ rule.declarations, declaration.IsPlain

end ThemeSheet

import ThemeSheet.Number.Numeral
import ThemeSheet.Text.Span

/-!
# Tokens

A stylesheet is a row of tokens.  A token holds what its source text reads
as: names, strings and urls with their escapes resolved, numbers as the
digits that were written.  Everything that a theme does not use, such as a
percentage, is a token all the same, since values take any of them and error
messages quote them.
-/

namespace ThemeSheet

inductive Bracket where
  | round
  | square
  | curly
deriving DecidableEq, Repr

namespace Bracket

def opening : Bracket → Char
  | round => '('
  | square => '['
  | curly => '\x7b'

def closing : Bracket → Char
  | round => ')'
  | square => ']'
  | curly => '\x7d'

end Bracket

inductive Token where
  | ident (name : List Char)
  | atKeyword (name : List Char)
  /-- A hash whose name could start an identifier. -/
  | idHash (name : List Char)
  | hash (name : List Char)
  | quoted (text : List Char)
  /-- A string that a newline cuts off. -/
  | badString (text : List Char)
  | url (address : List Char)
  /-- A url that breaks the rules, with its contents as they are written. -/
  | badUrl (contents : List Char)
  | function (name : List Char)
  | number (numeral : Numeral)
  | percentage (numeral : Numeral)
  | dimension (numeral : Numeral) (unit : List Char)
  | whitespace
  | comment
  | colon
  | semicolon
  | comma
  | delim (c : Char)
  | comparison (c : Char)
  | commentOpen
  | commentClose
  | opening (bracket : Bracket)
  | closing (bracket : Bracket)
deriving DecidableEq, Repr

/-- A token and the text that it was read from. -/
abbrev Lexeme := Span Token

namespace Token

def opens? : Token → Option Bracket
  | function _ => some .round
  | opening bracket => some bracket
  | _ => none

def closes? : Token → Option Bracket
  | closing bracket => some bracket
  | _ => none

def isGap : Token → Bool
  | whitespace | comment => true
  | _ => false

end Token

def dropGaps (lexemes : List Lexeme) : List Lexeme :=
  lexemes.dropWhile (fun lexeme => lexeme.value.isGap)

theorem dropGaps_cons_of_isGap {lexeme : Lexeme} (hgap : lexeme.value.isGap)
    (rest : List Lexeme) : dropGaps (lexeme :: rest) = dropGaps rest :=
  List.dropWhile_cons_of_pos hgap

theorem dropGaps_cons_of_not_isGap {lexeme : Lexeme} (hgap : ¬lexeme.value.isGap)
    (rest : List Lexeme) : dropGaps (lexeme :: rest) = lexeme :: rest :=
  List.dropWhile_cons_of_neg hgap

theorem dropGaps_append {gaps : List Lexeme} (hgaps : ∀ gap ∈ gaps, gap.value.isGap)
    (rest : List Lexeme) : dropGaps (gaps ++ rest) = dropGaps rest :=
  List.dropWhile_append_of_pos hgaps

theorem isGap_of_comments {comments : List Lexeme}
    (hcomments : ∀ comment ∈ comments, comment.value = .comment) :
    ∀ comment ∈ comments, comment.value.isGap := by
  intro comment hcomment
  rw [hcomments comment hcomment]
  rfl

theorem dropGaps_isSuffix (lexemes : List Lexeme) :
    dropGaps lexemes <:+ lexemes :=
  List.dropWhile_suffix _

section Rest

variable {lexemes rest : List Lexeme} {first : Lexeme}

theorem isSuffix_of_dropGaps (hgaps : dropGaps lexemes = first :: rest) : rest <:+ lexemes := by
  have hsuffix := dropGaps_isSuffix lexemes
  rw [hgaps] at hsuffix
  exact (List.suffix_cons first rest).trans hsuffix

end Rest

end ThemeSheet

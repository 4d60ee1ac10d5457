import ThemeSheet.Token.Basic
import ThemeSheet.Token.Name

/-!
# Quoted strings

A string runs to the quote that opened it or to the end of the text.  A
newline cuts it off, unless a backslash precedes it; then both vanish.
-/

namespace ThemeSheet

def quotedChar (quote : Char) (c : Char) (rest : List Char) :
    Option (Option Char × Nat) :=
  if c = quote ∨ isNewline c then none
  else if c = '\\' then
    if rest.isEmpty then some (none, 0)
    else if startsWithNewline rest then some (none, newlineWidth rest)
    else
      let (escaped, width) := readEscape rest
      some (some escaped, width)
  else some (some (visible c), 0)

/-- Reads what follows the opening quote.  The newline that cuts a string off
is not part of it. -/
def readQuoted (quote : Char) (text : List Char) : Token × Nat :=
  let spans := Span.readWhile (quotedChar quote) text
  let width := Span.width spans
  match text.drop width with
  | [] => (.quoted (Span.chars spans), width)
  | c :: _ =>
      if c = quote then (.quoted (Span.chars spans), width + 1)
      else (.badString (Span.chars spans), width)

end ThemeSheet

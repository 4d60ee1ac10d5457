import ThemeSheet.Token.Basic
import ThemeSheet.Token.Name

/-!
# Urls without quotes

After `url(` an address runs to the closing parenthesis or to the end of the
text, with the spaces around it left out.  An address with a character that
has no place in it is bad, and everything up to the closing parenthesis
belongs to it.
-/

namespace ThemeSheet

def isControl (c : Char) : Bool :=
  let code := c.toNat
  (0x01 ≤ code && code ≤ 0x08) || code == 0x0B ||
    (0x0E ≤ code && code ≤ 0x1F) || code == 0x7F

def isQuote (c : Char) : Bool := c == '"' || c == '\''

def urlChar (c : Char) (rest : List Char) : Option (Option Char × Nat) :=
  if isSpace c || isControl c || isQuote c || c == '(' || c == ')' then none
  else if c = '\\' then
    if startsWithNewline rest then none
    else
      let (escaped, width) := readEscape rest
      some (some escaped, width)
  else some (some (visible c), 0)

/-- A character of a bad url.  A backslash hides the parenthesis or the
backslash after it. -/
def badUrlChar (c : Char) (rest : List Char) : Option (Unit × Nat) :=
  if c = ')' then none
  else if c = '\\' then
    match rest with
    | ')' :: _ | '\\' :: _ => some ((), 1)
    | _ => some ((), 0)
  else some ((), 0)

/-- Reads a bad url whose first `known` characters have been passed. -/
def readBadUrl (known : Nat) (text : List Char) : Token × Nat :=
  let width := known + Span.width (Span.readWhile badUrlChar (text.drop known))
  (.badUrl (text.take width), min (width + 1) text.length)

def readAddress (text : List Char) : Token × Nat :=
  let spans := Span.readWhile urlChar text
  let width := Span.width spans
  let spaces := ((text.drop width).takeWhile isSpace).length
  match text.drop (width + spaces) with
  | [] => (.url (Span.chars spans), width + spaces)
  | ')' :: _ => (.url (Span.chars spans), width + spaces + 1)
  | _ => readBadUrl (width + spaces + 1) text

/-- Reads what follows `url(`.  Where a quote comes first, this is a function
like any other and nothing is read. -/
def readUrl (text : List Char) : Option (Token × Nat) :=
  let spaces := (text.takeWhile isSpace).length
  let body := text.drop spaces
  if body.head?.any isQuote then none
  else
    let (token, width) := readAddress body
    some (token, spaces + width)

end ThemeSheet

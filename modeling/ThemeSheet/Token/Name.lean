import ThemeSheet.Text.Hex
import ThemeSheet.Text.Location
import ThemeSheet.Text.Span

/-!
# Names and escapes

A name is a run of name characters and escapes.  Every character beyond ASCII
is a name character, and so is the null character, which reads as the
replacement character.
-/

namespace ThemeSheet

def replacement : Char := '\ufffd'

/-- What a character reads as outside of an escape. -/
def visible (c : Char) : Char :=
  if c = '\x00' then replacement else c

def isNameStart (c : Char) : Bool :=
  c.isAlpha || c == '_' || c == '\x00' || 0x80 ≤ c.toNat

def isNameChar (c : Char) : Bool :=
  isNameStart c || c.isDigit || c == '-'

def isSpace (c : Char) : Bool :=
  c == ' ' || c == '\t' || isNewline c

def spaceWidth : List Char → Nat
  | '\r' :: '\n' :: _ => 2
  | c :: _ => if isSpace c then 1 else 0
  | [] => 0

def startsWithNewline : List Char → Bool
  | c :: _ => isNewline c
  | [] => false

/-- The character with the given code, if there is one and it is not null. -/
def escapedChar (code : Nat) : Char :=
  if code ≠ 0 ∧ code.isValidChar then Char.ofNat code else replacement

/-- Reads what follows a backslash: up to six hexadecimal digits and one
space, or any one character. -/
def readEscape (text : List Char) : Char × Nat :=
  match text with
  | [] => (replacement, 0)
  | c :: _ =>
      let digits := (text.take 6).takeWhile isHexDigit
      if digits.isEmpty then (visible c, 1)
      else
        (escapedChar (hexValue digits),
          digits.length + spaceWidth (text.drop digits.length))

def nameChar (c : Char) (rest : List Char) : Option (Option Char × Nat) :=
  if isNameChar c then some (some (visible c), 0)
  else if c = '\\' ∧ !startsWithNewline rest then
    let (escaped, width) := readEscape rest
    some (some escaped, width)
  else none

def readName (text : List Char) : List Char × Nat :=
  let spans := Span.readWhile nameChar text
  (Span.chars spans, Span.width spans)

/-- Whether an identifier starts at the front of the text.  After a hyphen a
backslash is enough, whatever it is followed by. -/
def startsName : List Char → Bool
  | '-' :: c :: _ => isNameStart c || c == '-' || c == '\\'
  | '\\' :: rest => !startsWithNewline rest
  | c :: _ => isNameStart c
  | [] => false

end ThemeSheet

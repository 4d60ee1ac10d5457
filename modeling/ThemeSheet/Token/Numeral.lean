import ThemeSheet.Token.Basic
import ThemeSheet.Token.Name

/-!
# Numerals

A numeral is an optional sign, digits with an optional point among them, and
an optional exponent.  A point or an exponent mark counts only if a digit
follows it.
-/

namespace ThemeSheet

def startsWithDigit : List Char → Bool
  | c :: _ => c.isDigit
  | [] => false

def readSign : List Char → Option Sign × List Char
  | c :: rest =>
      match Sign.ofChar? c with
      | some sign => (some sign, rest)
      | none => (none, c :: rest)
  | [] => (none, [])

namespace Numeral

def startsAt (text : List Char) : Bool :=
  match (readSign text).2 with
  | '.' :: rest => startsWithDigit rest
  | rest => startsWithDigit rest

def readFraction : List Char → List Char × List Char
  | '.' :: rest =>
      if startsWithDigit rest then
        (rest.takeWhile Char.isDigit, rest.dropWhile Char.isDigit)
      else ([], '.' :: rest)
  | text => ([], text)

def readExponent (text : List Char) :
    Option (Option Sign × List Char) × List Char :=
  match text with
  | c :: rest =>
      let (sign, digits) := readSign rest
      if (c = 'e' ∨ c = 'E') ∧ startsWithDigit digits then
        (some (sign, digits.takeWhile Char.isDigit), digits.dropWhile Char.isDigit)
      else (none, text)
  | [] => (none, [])

def read (text : List Char) : Numeral × List Char :=
  let (sign, unsigned) := readSign text
  let (fraction, scaled) := readFraction (unsigned.dropWhile Char.isDigit)
  let (exponent, rest) := readExponent scaled
  (⟨sign, unsigned.takeWhile Char.isDigit, fraction, exponent⟩, rest)

end Numeral

/-- Reads a numeral with what is attached to it: a percent sign or a unit. -/
def readNumber (text : List Char) : Token × Nat :=
  let (numeral, rest) := Numeral.read text
  let width := text.length - rest.length
  match rest with
  | '%' :: _ => (.percentage numeral, width + 1)
  | _ =>
      if startsName rest then
        let (unit, unitWidth) := readName rest
        (.dimension numeral unit, width + unitWidth)
      else (.number numeral, width)

end ThemeSheet

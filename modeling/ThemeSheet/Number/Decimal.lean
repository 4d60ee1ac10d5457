/-!
# Decimal numbers

A decimal number is an integer times a power of ten, with a sign of its own
so that zero may be negative.  It is read from text that holds nothing else.
-/

namespace ThemeSheet

/-- The number `coefficient · 10 ^ exponent` with its sign. -/
structure Decimal where
  negative : Bool
  coefficient : Nat
  exponent : Int
deriving DecidableEq, Repr

def decimalDigits (n : Nat) : List Char := Nat.toDigits 10 n

def decimalValue (digits : List Char) : Nat :=
  digits.foldl (fun value c => 10 * value + (c.toNat - '0'.toNat)) 0

def readDigits? (text : List Char) : Option Nat :=
  if text.isEmpty || !text.all Char.isDigit then none
  else some (decimalValue text)

namespace Decimal

def readNegative : List Char → Bool × List Char
  | '-' :: rest => (true, rest)
  | '+' :: rest => (false, rest)
  | text => (false, text)

def readInteger? (text : List Char) : Option Int :=
  let (negative, digits) := readNegative text
  (readDigits? digits).map (fun n => if negative then -(n : Int) else n)

/-- Reads digits with at most one point.  Either side of the point may be
empty, but not both. -/
def readMantissa? (text : List Char) : Option (Nat × Nat) :=
  let whole := text.takeWhile (· ≠ '.')
  let fraction := (text.dropWhile (· ≠ '.')).drop 1
  (readDigits? (whole ++ fraction)).map (fun n => (n, fraction.length))

def isExponentMark (c : Char) : Bool := c == 'e' || c == 'E'

def parse? (text : List Char) : Option Decimal :=
  let (negative, unsigned) := readNegative text
  let mantissa := unsigned.takeWhile (fun c => !isExponentMark c)
  match readMantissa? mantissa, unsigned.dropWhile (fun c => !isExponentMark c) with
  | some (n, places), [] => some ⟨negative, n, -(places : Int)⟩
  | some (n, places), _ :: exponent =>
      (readInteger? exponent).map
        (fun e => ⟨negative, n, e - (places : Int)⟩)
  | none, _ => none

/-- How many digits stand before the point, negative if zeros follow it. -/
def pointPosition (d : Decimal) : Int :=
  (decimalDigits d.coefficient).length + d.exponent

end Decimal

end ThemeSheet

/-!
# Hexadecimal digits
-/

namespace ThemeSheet

def hexDigitValue? (c : Char) : Option Nat :=
  if '0' ≤ c ∧ c ≤ '9' then some (c.toNat - '0'.toNat)
  else if 'a' ≤ c ∧ c ≤ 'f' then some (c.toNat - 'a'.toNat + 10)
  else if 'A' ≤ c ∧ c ≤ 'F' then some (c.toNat - 'A'.toNat + 10)
  else none

def isHexDigit (c : Char) : Bool := (hexDigitValue? c).isSome

def hexValue (digits : List Char) : Nat :=
  digits.foldl (fun value c => 16 * value + (hexDigitValue? c).getD 0) 0

/-- The hexadecimal digits of a number in lower case, without leading
zeros. -/
def hexDigits (n : Nat) : List Char := Nat.toDigits 16 n

end ThemeSheet

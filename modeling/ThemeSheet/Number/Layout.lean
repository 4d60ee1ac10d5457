import ThemeSheet.Number.Decimal

/-!
# Writing decimals

A layout says how many significant digits are kept and where positional
notation gives way to an exponent.
-/

namespace ThemeSheet

structure DecimalLayout where
  significant : Nat
  /-- The positions of the point between which all digits are written out. -/
  firstPoint : Int
  lastPoint : Int
deriving Repr

/-- Keeps the first digits of a number and rounds the rest, a half upwards.
A carry through all of them gives one more digit. -/
def keepDigits (count : Nat) (digits : List Char) : List Char :=
  match digits.drop count with
  | [] => digits
  | next :: _ =>
      let kept := digits.take count
      if next < '5' then kept else decimalDigits (decimalValue kept + 1)

def stripZeros (digits : List Char) : List Char :=
  (digits.reverse.dropWhile (· = '0')).reverse

/-- Writes the digits with a point before the last `places` of them, without
zeros at the end of the fraction and without a bare point. -/
def insertPoint (digits : List Char) (places : Nat) : List Char :=
  let padded := List.replicate (places + 1 - digits.length) '0' ++ digits
  let (whole, fraction) := padded.splitAt (padded.length - places)
  if (stripZeros fraction).isEmpty then whole
  else whole ++ '.' :: stripZeros fraction

def writeInteger (n : Int) : List Char :=
  if n < 0 then '-' :: decimalDigits n.natAbs else decimalDigits n.natAbs

def DecimalLayout.write (layout : DecimalLayout) (d : Decimal) : List Char :=
  let digits := decimalDigits d.coefficient
  let kept := keepDigits layout.significant digits
  if layout.firstPoint ≤ d.pointPosition ∧ d.pointPosition ≤ layout.lastPoint then
    let exponent := d.exponent + (digits.length - layout.significant : Nat)
    if exponent < 0 then insertPoint kept exponent.natAbs
    else kept ++ List.replicate exponent.natAbs '0'
  else
    insertPoint kept (min digits.length layout.significant - 1) ++
      'e' :: writeInteger (d.pointPosition - 1)

end ThemeSheet

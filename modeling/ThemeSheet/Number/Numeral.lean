import ThemeSheet.Number.Layout
import ThemeSheet.Number.Digits

/-!
# Numerals

A numeral is a number as it is written.  Its value is summed up digit by digit
in double precision and then rounded to single precision, and what is written
for it shows the rounded value.
-/

namespace ThemeSheet

inductive Sign where
  | plus
  | minus
deriving DecidableEq, Repr

def Sign.ofChar? : Char → Option Sign
  | '+' => some plus
  | '-' => some minus
  | _ => none

/-- A sign, digits before and behind the point, and an exponent.  The fraction
is empty where no point is written, since a point is always followed by a
digit. -/
structure Numeral where
  sign : Option Sign
  whole : List Char
  fraction : List Char
  exponent : Option (Option Sign × List Char)
deriving DecidableEq, Repr

def signed : Option Sign → Float → Float
  | some .minus, x => -x
  | _, x => x

def digitFloat (c : Char) : Float := (c.toNat - '0'.toNat).toFloat

def wholeFloat (digits : List Char) : Float :=
  digits.foldl (fun value c => value * 10 + digitFloat c) 0

/-- Each digit is weighed with a power of a tenth that is the rounded product
of the one before it. -/
def fractionFloat (digits : List Char) : Float :=
  (digits.foldl
    (fun (value, weight) c => (value + digitFloat c * weight, weight * 0.1))
    ((0, 0.1) : Float × Float)).1

namespace Numeral

def isInteger (numeral : Numeral) : Bool :=
  numeral.fraction.isEmpty && numeral.exponent.isNone

def toFloat (numeral : Numeral) : Float :=
  let value :=
    signed numeral.sign
      (wholeFloat numeral.whole + fractionFloat numeral.fraction)
  match numeral.exponent with
  | none => value
  | some (sign, digits) =>
      value * Float.pow 10 (signed sign (wholeFloat digits))

def toFloat32 (numeral : Numeral) : Float32 := numeral.toFloat.toFloat32

/-- The value of a percentage, which is kept as a share of one in single
precision. -/
def percentToFloat32 (numeral : Numeral) : Float32 :=
  (numeral.toFloat / 100).toFloat32 * 100

/-- Six significant digits are kept, and the point moves freely from five
zeros behind it to twenty-one digits before it. -/
def layout : DecimalLayout := ⟨6, -5, 21⟩

def isPointOrExponent (c : Char) : Bool := c == '.' || c == 'e'

/-- Writes the value of a numeral.  A plus is kept, and a fraction of zero is
added where a fraction or an exponent was written and the value shows
neither. -/
def writeValue (numeral : Numeral) (x : Float32) : List Char :=
  let d := Decimal.ofFloat32 x
  let sign :=
    if d.negative then ['-'] else if numeral.sign.isSome then ['+'] else []
  let magnitude := layout.write d
  let zero :=
    if numeral.isInteger || x.floor != x || magnitude.any isPointOrExponent
    then [] else ['.', '0']
  sign ++ magnitude ++ zero

end Numeral

end ThemeSheet

import ThemeSheet.Number.Digits

/-!
# Rounding to single precision

A number is rounded to the nearest multiple of a power of two, and halfway
between two of them to the even one.  The power leaves twenty-four bits, but
below a certain size it becomes no smaller.  What is rounded may fill one bit
more, and then it carries into the exponent.

What is too large becomes infinite.  Infinity and what is no number at all can
also be written, by their names.
-/

namespace ThemeSheet

/-- The nearest integer, and of two equally near ones the even one. -/
def roundHalfEven (q : Rat) : Int :=
  let rest := q - q.floor
  if rest < 1 / 2 ∨ (rest = 1 / 2 ∧ q.floor % 2 = 0) then q.floor
  else q.floor + 1

/-- The exponent of the greatest power of two up to a positive number. -/
def binaryExponent (q : Rat) : Int :=
  let estimate : Int := (q.num.natAbs.log2 : Int) - q.den.log2
  if (2 : Rat) ^ estimate ≤ q then estimate else estimate - 1

/-- The bits of the numbers that are not finite begin here. -/
def infiniteBits : Nat := 0x7F800000

def signBit : Nat := 0x80000000

def signedFloat32 (negative : Bool) (bits : Nat) : Float32 :=
  Float32.ofBits (UInt32.ofNat (if negative then signBit + bits else bits))

namespace Binary

/-- The nearest number that fits, up to a carry out of the mantissa. -/
def nearest (q : Rat) : Binary :=
  let exponent := max (binaryExponent q - 23) (-149)
  ⟨(roundHalfEven (q / (2 : Rat) ^ exponent)).toNat, exponent⟩

/-- The bits of a number.  The hidden bit and a carry are added to the field
of the exponent, which is therefore given one too low. -/
def bits (b : Binary) : Nat := (b.exponent + 149).toNat * hiddenBit + b.mantissa

end Binary

namespace Decimal

def magnitude (d : Decimal) : Rat := d.coefficient * (10 : Rat) ^ d.exponent

/-- The bits of the nearest number.  Beyond the bounds every number is too
large, or rounds to zero, and the power of ten need not be computed. -/
def magnitudeBits (d : Decimal) : Nat :=
  if d.coefficient = 0 ∨ d.pointPosition < -60 then 0
  else if 60 < d.pointPosition then infiniteBits
  else min infiniteBits (Binary.nearest d.magnitude).bits

/-- The nearest number of single precision, which is infinite where the
decimal number is too large. -/
def toFloat32 (d : Decimal) : Float32 := signedFloat32 d.negative d.magnitudeBits

end Decimal

/-- The names for what is not finite, in large letters or small. -/
def namedBits? (name : List Char) : Option Nat :=
  let lower := name.map Char.toLower
  if lower = "inf".toList ∨ lower = "infinity".toList then some infiniteBits
  else if lower = "nan".toList then some (infiniteBits + 0x400000)
  else none

/-- Reads a number of single precision, finite or not. -/
def readFloat32? (text : List Char) : Option Float32 :=
  match Decimal.parse? text with
  | some d => some d.toFloat32
  | none =>
      let (negative, name) := Decimal.readNegative text
      (namedBits? name).map (signedFloat32 negative)

end ThemeSheet

import ThemeSheet.Number.Decimal

/-!
# Digits of binary numbers

A number of single precision stands for the numbers that lie nearer to it
than to its neighbours.  It is written as one of these, on the coarsest
decimal grid that has one.

The range is brought to a convenient magnitude by a power of ten first, and
this is done with thirty-two bits.  To make up for what is rounded, the range
is taken a little narrower than it is.  So the digits always read back as the
number, and only where a short decimal lies at the very edge of the range,
more digits than necessary are given.
-/

namespace ThemeSheet

/-- The number `mantissa · 2 ^ exponent`. -/
structure Binary where
  mantissa : Nat
  exponent : Int
deriving DecidableEq, Repr

/-- The leading bit of a mantissa, which is not stored. -/
def hiddenBit : Nat := 0x800000

/-- What bits say, without the sign. -/
def Binary.ofBits (bits : Nat) : Binary :=
  let field : Nat := bits / hiddenBit % 0x100
  let fraction := bits % hiddenBit
  if field = 0 then ⟨fraction, -149⟩
  else ⟨hiddenBit + fraction, (field : Int) - 150⟩

def Binary.ofFloat32 (x : Float32) : Binary := ofBits x.toBits.toNat

/-- A number and the halves of the ways to its neighbours. -/
structure Neighbourhood where
  lower : Rat
  center : Rat
  upper : Rat
deriving DecidableEq, Repr

/-- The power of ten as `mantissa · 2 ^ exponent` with a mantissa of
thirty-two bits, rounded to nearest. -/
def tenPower (power : Int) : Binary :=
  let magnitude : Nat := Nat.log2 (Nat.pow 10 power.natAbs)
  let exponent : Int :=
    if 0 ≤ power then (magnitude : Int) - 31 else -(magnitude : Int) - 32
  ⟨((10 : Rat) ^ power / (2 : Rat) ^ exponent + 1 / 2).floor.toNat, exponent⟩

def scalingPowers : List Int :=
  (List.range 12).map (fun n : Nat => 8 * (n : Int) - 36)

/-- The upper half of the product of two numbers of thirty-two bits, rounded
to nearest. -/
def upperHalf (a b : Nat) : Nat := (a * b + 0x80000000) / 0x100000000

namespace Binary

/-- How far the mantissa has to be shifted for the upper end of the
neighbourhood to fill thirty-two bits. -/
def slack (b : Binary) : Nat := 31 - (2 * b.mantissa + 1).log2

def scaledExponent (b : Binary) (power : Int) : Int :=
  b.exponent - 1 - b.slack + (tenPower power).exponent + 32

/-- The least power that leaves at most twenty-eight bits behind the point. -/
def scalingPower (b : Binary) : Int :=
  (scalingPowers.find? (fun power => -28 ≤ b.scaledExponent power)).getD 0

/-- The neighbourhood, multiplied with a power of ten and narrowed by one unit
of its last place at either end.  Below a power of two the neighbours are
half as far away. -/
def scaled (b : Binary) (power : Int) : Neighbourhood :=
  let unit := (2 : Rat) ^ b.scaledExponent power
  let place (n : Nat) : Nat := upperHalf n (tenPower power).mantissa
  let lower :=
    if b.mantissa = hiddenBit then ((4 * b.mantissa - 1) <<< b.slack) / 2
    else (2 * b.mantissa - 1) <<< b.slack
  { lower := (place lower + 1 : Nat) * unit
    center := place ((2 * b.mantissa) <<< b.slack) * unit
    upper := (place ((2 * b.mantissa + 1) <<< b.slack) - 1 : Nat) * unit }

end Binary

namespace Neighbourhood

/-- Whether a multiple of `10 ^ exponent` lies in the neighbourhood.  The lower
end counts only if it is a whole number. -/
def meets (range : Neighbourhood) (exponent : Int) : Bool :=
  let unit := (10 : Rat) ^ exponent
  let last := (range.upper / unit).floor * unit
  range.lower < last || (range.lower = last && 0 ≤ exponent)

/-- The multiple of `10 ^ exponent` in the neighbourhood that is nearest to the
center.  Of two equally near ones it is the larger. -/
def nearest? (range : Neighbourhood) (exponent : Int) : Option Nat :=
  let unit := (10 : Rat) ^ exponent
  let below := (range.center / unit).floor.toNat
  let nearer :=
    if range.center - below * unit < (below + 1 : Nat) * unit - range.center then
      [below, below + 1]
    else [below + 1, below]
  nearer.find? (fun n => range.lower ≤ n * unit ∧ n * unit ≤ range.upper)

/-- The grids that are tried, from the coarsest to one that is fine enough for
every scaled number. -/
def grids : List Int := (List.range 30).map (fun n : Nat => 9 - (n : Int))

def decimal? (range : Neighbourhood) : Option Decimal := do
  let exponent ← grids.find? range.meets
  let coefficient ← range.nearest? exponent
  return ⟨false, coefficient, exponent⟩

end Neighbourhood

def Binary.decimal (b : Binary) : Decimal :=
  let power := b.scalingPower
  match if b.mantissa = 0 then none else (b.scaled power).decimal? with
  | some d => { d with exponent := d.exponent - power }
  | none => ⟨false, 0, 0⟩

/-- A decimal number that reads back as the given one. -/
def Decimal.ofFloat32 (x : Float32) : Decimal :=
  { (Binary.ofFloat32 x).decimal with
    negative := 0x80000000 ≤ x.toBits.toNat }

end ThemeSheet

/-!
# Locations in a stylesheet

Lines and columns are counted from one, and columns in 16-bit units.  A line
ends with a line feed, a form feed, a carriage return, or a carriage return
and a line feed, which count as one.
-/

namespace ThemeSheet

def isNewline (c : Char) : Bool :=
  c == '\n' || c == '\r' || c == '\x0c'

/-- How many characters the newline at the front of the text takes. -/
def newlineWidth : List Char → Nat
  | '\r' :: '\n' :: _ => 2
  | c :: _ => if isNewline c then 1 else 0
  | [] => 0

structure Location where
  line : Nat
  column : Nat
deriving DecidableEq, Repr

namespace Location

def start : Location := ⟨1, 1⟩

def nextLine (location : Location) : Location := ⟨location.line + 1, 1⟩

/-- Characters beyond the basic plane take two units. -/
def nextColumn (location : Location) (c : Char) : Location :=
  ⟨location.line, location.column + if c.toNat < 0x10000 then 1 else 2⟩

def past (location : Location) : List Char → Location
  | [] => location
  | '\r' :: '\n' :: rest => location.nextLine.past rest
  | c :: rest =>
      if isNewline c then location.nextLine.past rest
      else (location.nextColumn c).past rest

end Location

end ThemeSheet

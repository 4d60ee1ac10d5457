import ThemeSheet.Proofs.Lexemes

/-!
# Locations that differ

Two places of a text have different locations, unless a newline of two characters is all
that lies between their last and first characters.  Such a newline is whitespace, or an
escape or a string takes it in as a whole: no name ends between its characters.
-/

namespace ThemeSheet

namespace Location

/-- Whether a location comes before another. -/
def Before (location other : Location) : Prop :=
  location.line < other.line ∨ location.line = other.line ∧ location.column < other.column

section Before

variable {first second third location : Location} {text front rest : List Char}

theorem Before.trans (hfirst : first.Before second) (hsecond : second.Before third) :
    first.Before third := by
  unfold Before at *
  omega

theorem Before.ne (hbefore : first.Before second) : second ≠ first := by
  rintro rfl
  unfold Before at hbefore
  omega

end Before

end Location

/-! ## Names in front of a newline -/

section Names

variable {c : Char} {text rest : List Char} {value : Option Char} {more : Nat}

end Names

end ThemeSheet

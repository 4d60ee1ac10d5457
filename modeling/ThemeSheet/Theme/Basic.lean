import ThemeSheet.Style.Basic
import ThemeSheet.Vector3

/-!
# Themes

A theme is what a stylesheet says about itself, together with its styles.
The styles form a forest, in which parents have smaller numbers than their
children.
-/

namespace ThemeSheet

structure Theme where
  name : String
  source : String
  baseDirectory : Option String
  unitSize : Vector3
  /-- Whether the stylesheet has a unit size, even one that is no vector. -/
  isUnitSizeSet : Bool
  styles : List Style
deriving BEq, Repr

namespace Theme

def style? (theme : Theme) (index : Nat) : Option Style := theme.styles[index]?

def parent? (theme : Theme) (style : Style) : Option Style :=
  style.parent.bind theme.style?

/-- The styles met on the way up, in at most `steps` steps. -/
def climb (theme : Theme) (steps : Nat) (style : Style) : List Style :=
  match steps with
  | 0 => []
  | steps + 1 =>
      match theme.parent? style with
      | some parent => parent :: theme.climb steps parent
      | none => []

/-- The styles that enclose a style, nearest first.  There are fewer of them
than there are styles. -/
def ancestors (theme : Theme) (style : Style) : List Style :=
  theme.climb theme.styles.length style

def roots (theme : Theme) : List Style :=
  theme.styles.filter (·.isRoot)

def children (theme : Theme) (index : Nat) : List Style :=
  theme.styles.filter (fun style => style.parent = some index)

/-- The first style with the given selector, wherever it stands. -/
def find? (theme : Theme) (selector : Selector) : Option Style :=
  theme.styles.find? (fun style => style.selector = selector)

end Theme

end ThemeSheet

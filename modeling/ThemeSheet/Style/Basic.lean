import ThemeSheet.Property

/-!
# Styles

A style holds the properties of one element.  The styles of a theme are
numbered, and a style knows the number of the one that encloses it.
-/

namespace ThemeSheet

structure Style where
  index : Nat
  parent : Option Nat
  selector : Selector
  properties : List Property
deriving BEq, Repr

namespace Style

def bare (index : Nat) (parent : Option Nat) (selector : Selector) : Style :=
  ⟨index, parent, selector, []⟩

def isRoot (style : Style) : Bool := style.parent.isNone

def parentIndex (style : Style) : Int :=
  match style.parent with
  | some parent => parent
  | none => -1

/-- Puts new properties behind those that they do not replace. -/
def declare (style : Style) (properties : List Property) : Style :=
  { style with
    properties :=
      style.properties.filter (fun old => !properties.contains old) ++ properties }

def property? (style : Style) (name : String) : Option Property :=
  style.properties.find? (fun property => property.name = name)

end Style

end ThemeSheet

import ThemeSheet.Style.Basic

/-!
# The forest of styles

Selectors that share ancestors share the styles of these.  A style is found
again by its place: the texts of the segments that lead to it, and its own.
-/

namespace ThemeSheet

/-- Where a style stands: the path of texts above it, and its own text. -/
structure Place where
  path : List Char
  segment : List Char
deriving DecidableEq, Repr

/-- The path below a segment.  Texts are separated by a space, except that an
empty path leaves no trace. -/
def Place.below (place : Place) : List Char :=
  if place.path.isEmpty then place.segment
  else place.path ++ ' ' :: place.segment

/-- The styles in the order of their numbers, with their places. -/
structure StyleForest where
  entries : List (Place × Style)
deriving Repr

namespace StyleForest

def empty : StyleForest := ⟨[]⟩

def styles (forest : StyleForest) : List Style := forest.entries.map (·.2)

def indexOf? (forest : StyleForest) (place : Place) : Option Nat :=
  forest.entries.findIdx? (fun entry => entry.1 = place)

def enter (forest : StyleForest) (place : Place) (parent : Option Nat)
    (selector : Selector) : StyleForest × Nat :=
  match forest.indexOf? place with
  | some index => (forest, index)
  | none =>
      let index := forest.entries.length
      (⟨forest.entries ++ [(place, Style.bare index parent selector)]⟩, index)

/-- Enters the segments one below the other and answers the number of the
last.  `path` and `parent` are those of the first. -/
def descend (forest : StyleForest) (path : List Char) (parent : Option Nat) :
    List Selector → StyleForest × Option Nat
  | [] => (forest, parent)
  | selector :: rest =>
      let place : Place := ⟨path, selector.text.toList⟩
      let (grown, index) := forest.enter place parent selector
      grown.descend place.below (some index) rest

def declareAt (forest : StyleForest) (index : Nat)
    (properties : List Property) : StyleForest :=
  ⟨forest.entries.modify index
    (fun (place, style) => (place, style.declare properties))⟩

/-- Declares properties for what a selector ends in.  A selector without
segments ends in nothing. -/
def declare (forest : StyleForest) (selector : String)
    (properties : List Property) : StyleForest :=
  match forest.descend [] none ((segments selector).map Selector.ofSegment) with
  | (grown, some index) => grown.declareAt index properties
  | (grown, none) => grown

end StyleForest

end ThemeSheet

import ThemeSheet.Text.Blank

/-!
# Selectors

A selector is a row of segments from the outermost ancestor to the element
that is styled.  A segment names an element, an id and a class.  What follows
`::` is a path into the element: it belongs to the names of properties and
not to the segment.
-/

namespace ThemeSheet

/-- What stands before the first `::`, and what stands after it if there is
one. -/
def cutPath : List Char → List Char × Option (List Char)
  | [] => ([], none)
  | ':' :: ':' :: path => ([], some path)
  | c :: rest => (c :: (cutPath rest).1, (cutPath rest).2)

/-- What stands between the first `marker` and the next `stop`. -/
def partAfter? (marker stop : Char) (text : List Char) : Option (List Char) :=
  match text.dropWhile (· ≠ marker) with
  | [] => none
  | _ :: rest => some (rest.takeWhile (· ≠ stop))

structure Selector where
  element : String
  id : Option String
  className : Option String
deriving DecidableEq, Repr

namespace Selector

def ofSegment (segment : String) : Selector :=
  let text := (cutPath segment.toList).1
  { element := String.ofList (text.takeWhile (fun c => c ≠ '#' ∧ c ≠ '.'))
    id := (partAfter? '#' '.' text).map String.ofList
    className := (partAfter? '.' '#' text).map String.ofList }

/-- The one spelling of a selector, with the id before the class. -/
def text (selector : Selector) : String :=
  selector.element ++
    (selector.id.map ("#" ++ ·)).getD "" ++
    (selector.className.map ("." ++ ·)).getD ""

end Selector

/-- The segments of a selector, outermost first. -/
def segments (selector : String) : List String :=
  (words selector.toList).map String.ofList

end ThemeSheet

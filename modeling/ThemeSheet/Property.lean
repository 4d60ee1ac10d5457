import ThemeSheet.Rule.Basic
import ThemeSheet.Selector

/-!
# Properties

A declaration becomes a property of the element that its selector ends in.
Where the selector has a path, the path goes into the name of the property,
behind the state that the declaration is for.
-/

namespace ThemeSheet

structure Property where
  name : String
  value : String
deriving DecidableEq, Repr

namespace Property

/-- Properties are compared by name alone. -/
instance : BEq Property := ⟨fun a b => a.name == b.name⟩

instance : Hashable Property := ⟨fun property => hash property.name⟩

/-- Splits a name into a state with its hyphens and a field.  The state ends
with the first hyphen or pair of hyphens and cannot be empty. -/
def splitState (name : List Char) : List Char × List Char :=
  let state := name.takeWhile (· ≠ '-')
  if state.isEmpty then ([], name)
  else
    match name.dropWhile (· ≠ '-') with
    | '-' :: '-' :: field => (state ++ ['-', '-'], field)
    | '-' :: field => (state ++ ['-'], field)
    | _ => ([], name)

def nameUnder (selector name : List Char) : List Char :=
  match (cutPath selector).2 with
  | none => name
  | some path => (splitState name).1 ++ path ++ '.' :: (splitState name).2

def ofDeclaration (selector : String) (declaration : Declaration) : Property :=
  { name :=
      String.ofList (nameUnder selector.toList declaration.name.toList)
    value := declaration.value }

end Property

end ThemeSheet

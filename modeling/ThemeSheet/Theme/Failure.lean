import ThemeSheet.Rule.Stylesheet

/-!
# Failures

What can go wrong when a theme is loaded.
-/

namespace ThemeSheet

inductive Failure where
  | malformed (detail : String) (location : Location)
  | missingThemeSelector
  | missingThemeName
  | invalidUnitSize (value : String)
  | unreadable (path reason : String)
deriving DecidableEq, Repr

inductive FailureKind where
  | malformed
  | missingThemeSelector
  | missingThemeName
  | invalidUnitSize
  | unreadable
deriving DecidableEq, Repr

def FailureKind.name : FailureKind → String
  | malformed => "Syntax"
  | missingThemeSelector => "MissingThemeSelector"
  | missingThemeName => "MissingThemeName"
  | invalidUnitSize => "InvalidUnitSize"
  | unreadable => "Io"

namespace Failure

def ofFault (fault : Fault) : Failure :=
  .malformed fault.message fault.location

def kind : Failure → FailureKind
  | malformed _ _ => .malformed
  | missingThemeSelector => .missingThemeSelector
  | missingThemeName => .missingThemeName
  | invalidUnitSize _ => .invalidUnitSize
  | unreadable _ _ => .unreadable

def message : Failure → String
  | malformed detail location =>
      detail ++ " (line " ++ toString location.line ++ ", column " ++
        toString location.column ++ ")"
  | missingThemeSelector => "Missing Theme selector."
  | missingThemeName => "Missing Theme Name."
  | invalidUnitSize value =>
      "Unable to parse UnitSize attribute value \"" ++ value ++ "\"."
  | unreadable path reason =>
      "Failed to read theme '" ++ path ++ "': " ++ reason

def isRecoverable : Failure → Bool
  | invalidUnitSize _ => true
  | _ => false

end Failure

end ThemeSheet

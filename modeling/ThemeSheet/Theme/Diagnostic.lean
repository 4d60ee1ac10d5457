import ThemeSheet.Theme.Failure

/-!
# Diagnostics

A diagnostic reports a failure to whoever loads a theme, under the label of
the stylesheet.
-/

namespace ThemeSheet

inductive Severity where
  /-- A theme was built with a default in place of what is wrong. -/
  | warning
  /-- No theme was built. -/
  | error
deriving DecidableEq, Repr

def Severity.rank : Severity → Nat
  | warning => 0
  | error => 1

instance : LT Severity := ⟨fun a b => a.rank < b.rank⟩

instance (a b : Severity) : Decidable (a < b) :=
  inferInstanceAs (Decidable (a.rank < b.rank))

structure Diagnostic where
  severity : Severity
  kind : FailureKind
  source : String
  message : String
deriving DecidableEq, Repr

namespace Diagnostic

def ofFailure (source : String) (failure : Failure) : Diagnostic :=
  { severity := if failure.isRecoverable then .warning else .error
    kind := failure.kind
    source := source
    message := failure.message }

def line (diagnostic : Diagnostic) : String :=
  diagnostic.source ++ ": Error parsing theme CSS. " ++ diagnostic.message

def taggedLine (diagnostic : Diagnostic) (tag : String) : String :=
  "[" ++ tag ++ "] " ++ diagnostic.line

end Diagnostic

end ThemeSheet

import ThemeSheet.Theme.Diagnostic
import ThemeSheet.Vector3

/-!
# Events

Loading a theme leaves a row of events behind.  Each can be written to a log;
the diagnostics among them are what is reported to the caller.
-/

namespace ThemeSheet

inductive Event where
  | parsed (rules : Nat)
  | unitSizeRejected (error : VectorError)
  | reported (tag : String) (diagnostic : Diagnostic)
  | compiled (theme source : String) (rules styles : Nat)
deriving DecidableEq, Repr

namespace Event

def report? : Event → Option (String × Diagnostic)
  | reported tag diagnostic => some (tag, diagnostic)
  | _ => none

end Event

def diagnostics (events : List Event) : List Diagnostic :=
  (events.filterMap Event.report?).map (·.2)

def diagnosticLines (events : List Event) : List String :=
  (events.filterMap Event.report?).map
    (fun (tag, diagnostic) => diagnostic.taggedLine tag)

inductive LogLevel where
  | trace
  | debug
  | warn
  | error
deriving DecidableEq, Repr

namespace LogLevel

def name : LogLevel → String
  | trace => "TRACE"
  | debug => "DEBUG"
  | warn => "WARN"
  | error => "ERROR"

def ofSeverity : Severity → LogLevel
  | .warning => warn
  | .error => error

end LogLevel

structure LogRecord where
  level : LogLevel
  target : String
  fields : List (String × String)
deriving DecidableEq, Repr

namespace LogRecord

def parserTarget : String := "horizon_lattice_theme::parser"

def compilerTarget : String := "horizon_lattice_theme::compiler"

def loaderTarget : String := "horizon_lattice_theme::loader"

end LogRecord

open LogRecord in
def Event.record : Event → LogRecord
  | parsed rules =>
      ⟨.trace, parserTarget,
        [("message", "parsed stylesheet"), ("rules", toString rules)]⟩
  | unitSizeRejected error =>
      ⟨.trace, compilerTarget,
        [("message", "unit size conversion failed"), ("err", error.message)]⟩
  | reported tag diagnostic =>
      ⟨.ofSeverity diagnostic.severity, loaderTarget,
        [("message", diagnostic.taggedLine tag),
          ("kind", diagnostic.kind.name), ("source", diagnostic.source)]⟩
  | compiled theme source rules styles =>
      ⟨.debug, compilerTarget,
        [("message", "compiled theme"), ("theme", theme), ("source", source),
          ("rules", toString rules), ("styles", toString styles)]⟩

end ThemeSheet

import ThemeSheet.Load.Basic

/-!
# Sessions

A session loads one theme after the other and collects what is reported,
until it is taken.
-/

namespace ThemeSheet

structure Session where
  options : LoadOptions
  /-- The diagnostics that have not been taken, in the order of reporting. -/
  pending : List Diagnostic
  theme : Option Theme
deriving Repr

namespace Session

def start (options : LoadOptions) : Session := ⟨options, [], none⟩

def after (session : Session) (theme : Option Theme) (events : List Event) :
    Session :=
  { session with
    pending := session.pending ++ diagnostics events
    theme := theme }

def load (session : Session) (css source : String) : Session × Option Theme :=
  let (theme, events) := session.options.load css source
  (session.after theme events, theme)

def attempt (session : Session) (css source : String) :
    Session × Except Failure Theme :=
  let (result, events) := session.options.attempt css source
  (session.after result.toOption events, result)

def take (session : Session) : Session × List Diagnostic :=
  ({ session with pending := [] }, session.pending)

def kinds (session : Session) : List FailureKind :=
  session.pending.map (·.kind)

end Session

end ThemeSheet

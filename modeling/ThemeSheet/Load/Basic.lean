import ThemeSheet.Load.Build
import ThemeSheet.Load.Files

/-!
# Loading themes

A theme is loaded from the text of a stylesheet or from a file.  Either the
failure is handed back, or it is reported and there is no theme.
-/

namespace ThemeSheet

namespace LoadOptions

def attempt (options : LoadOptions) (css source : String) :
    Except Failure Theme × List Event :=
  match readStylesheet css with
  | .error fault => (.error (.ofFault fault), [])
  | .ok rules =>
      let (result, events) := options.build source rules
      (result, .parsed rules.length :: events)

/-- Reports a failure instead of handing it back. -/
def settle (options : LoadOptions) (source : String) :
    Except Failure Theme × List Event → Option Theme × List Event
  | (.ok theme, events) => (some theme, events)
  | (.error failure, events) =>
      (none, events ++ [options.report source failure])

def load (options : LoadOptions) (css source : String) :
    Option Theme × List Event :=
  options.settle source (options.attempt css source)

def attemptFile (options : LoadOptions) (tree : FileTree) (path : String) :
    Except Failure Theme × List Event :=
  match tree.read path with
  | .error err => (.error (.unreadable path err.message), [])
  | .ok css => options.attempt css (fileLabel path)

def loadFile (options : LoadOptions) (tree : FileTree) (path : String) :
    Option Theme × List Event :=
  options.settle (fileLabel path) (options.attemptFile tree path)

end LoadOptions

end ThemeSheet

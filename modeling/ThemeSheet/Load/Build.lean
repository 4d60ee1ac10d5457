import ThemeSheet.Load.Collected
import ThemeSheet.Load.Options
import ThemeSheet.Theme.Basic

/-!
# Building a theme from rules

The rules that describe the theme give its name, unit size and base
directory; all others give its styles.  Of several entries with one name the
last counts.
-/

namespace ThemeSheet

def lastValue? (entries : List Declaration) (name : String) : Option String :=
  (entries.reverse.find? (fun entry => entry.name = name)).map (·.value)

namespace LoadOptions

/-- The unit size for an entry.  An empty entry counts as none, and one that
is no vector is reported. -/
def resolveUnitSize (options : LoadOptions) (source : String) :
    Option String → Vector3 × List Event
  | none => (options.unitSize, [])
  | some value =>
      if value.isEmpty then (options.unitSize, [])
      else
        match Vector3.parse value with
        | .ok unitSize => (unitSize, [])
        | .error err =>
            (options.unitSize,
              [.unitSizeRejected err,
                options.report source (.invalidUnitSize value)])

/-- The theme that rules describe, or why there is none.  A theme needs an
entry, and one of its entries has to be the name. -/
def build (options : LoadOptions) (source : String) (rules : List Rule) :
    Except Failure Theme × List Event :=
  let collected := Collected.ofRules rules
  let entries := collected.entries
  if entries.isEmpty then (.error .missingThemeSelector, [])
  else
    match lastValue? entries "Name" with
    | none => (.error .missingThemeName, [])
    | some name =>
        let entry? := lastValue? entries "UnitSize"
        let (unitSize, events) := options.resolveUnitSize source entry?
        let styles := collected.forest.styles
        let theme : Theme :=
          { name := name
            source := source
            baseDirectory := lastValue? entries "BaseDirectory"
            unitSize := unitSize
            isUnitSizeSet := entry?.isSome
            styles := styles }
        (.ok theme,
          events ++ [.compiled name source rules.length styles.length])

end LoadOptions

end ThemeSheet

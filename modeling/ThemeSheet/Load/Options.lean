import ThemeSheet.Theme.Event
import ThemeSheet.Vector3

/-!
# Options

What does not depend on the stylesheet that is loaded.
-/

namespace ThemeSheet

structure LoadOptions where
  /-- The unit size of themes that have none or one that is no vector. -/
  unitSize : Vector3 := ⟨40, 40, 0⟩
  logTag : String := "Lattice"
deriving BEq, Repr

def LoadOptions.report (options : LoadOptions) (source : String)
    (failure : Failure) : Event :=
  .reported options.logTag (.ofFailure source failure)

end ThemeSheet

/-!
# Rules

A stylesheet is a list of rules.  A rule applies its declarations to each of
its selectors, except for the one that describes the theme itself.
-/

namespace ThemeSheet

/-- A name and a value, both as text.  What the value means is left open. -/
structure Declaration where
  name : String
  value : String
deriving DecidableEq, Repr

def Declaration.ofChars (name value : List Char) : Declaration :=
  ⟨String.ofList name, String.ofList value⟩

structure Rule where
  selectors : List String
  declarations : List Declaration
deriving DecidableEq, Repr

/-- Whether the rule describes the theme.  Among other selectors, `Theme`
names an element like any other. -/
def Rule.isTheme (rule : Rule) : Bool := rule.selectors == ["Theme"]

end ThemeSheet

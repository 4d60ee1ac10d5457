import ThemeSheet.Style.Forest

/-!
# What rules say

One pass over the rules collects what they say about the theme and about its
styles.  A rule that describes the theme adds its entries; any other declares
its properties for each of its selectors.
-/

namespace ThemeSheet

structure Collected where
  /-- What the theme says about itself, in order. -/
  entries : List Declaration := []
  forest : StyleForest := .empty
deriving Repr

namespace Collected

def add (collected : Collected) (rule : Rule) : Collected :=
  if rule.isTheme then
    { collected with entries := collected.entries ++ rule.declarations }
  else
    { collected with
      forest := rule.selectors.foldl
        (fun forest selector =>
          forest.declare selector
            (rule.declarations.map (Property.ofDeclaration selector)))
        collected.forest }

def ofRules (rules : List Rule) : Collected := rules.foldl add {}

end Collected

end ThemeSheet

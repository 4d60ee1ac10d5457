import ThemeSheet.Proofs.Cascade
import ThemeSheet.Proofs.Reading
import ThemeSheet.Load.Basic

/-!
# From declarations to properties

Whatever a stylesheet declares for a selector is a property of the style that
the selector ends in, unless the same name is declared there again.  And a
style has no properties but those.
-/

namespace ThemeSheet

/-- The pairs of a rule and one of its selectors, in the order in which the
rules are applied. -/
def applications (rules : List Rule) : List (Rule × String) :=
  (rules.filter (fun rule => !rule.isTheme)).flatMap (fun rule =>
    rule.selectors.map (fun selector => (rule, selector)))

/-- What an application adds to the style that its selector ends in. -/
def appliedProperties (application : Rule × String) : List Property :=
  application.1.declarations.map (Property.ofDeclaration application.2)

theorem stylings_eq_map_applications (rules : List Rule) :
    stylings rules = (applications rules).map (fun application =>
      (application.2, appliedProperties application)) := by
  unfold stylings applications
  rw [List.map_flatMap]
  simp [Function.comp_def, appliedProperties]

theorem mem_applications {rules : List Rule} {rule : Rule} {selector : String} :
    (rule, selector) ∈ applications rules ↔
      rule ∈ rules ∧ rule.isTheme = false ∧ selector ∈ rule.selectors := by
  simp [applications, and_assoc]

theorem layersAt_stylings (rules : List Rule) (place : Place) :
    layersAt (stylings rules) place =
      ((applications rules).filter (fun application =>
        target? application.2 = some place)).map appliedProperties := by
  rw [stylings_eq_map_applications, layersAt, List.filter_map, List.map_map]
  rfl

theorem mem_styledSelectors {rules : List Rule} {rule : Rule} {selector : String}
    (hmem : (rule, selector) ∈ applications rules) :
    selector ∈ styledSelectors rules := by
  rcases mem_applications.mp hmem with ⟨hrule, hother, hselector⟩
  refine List.mem_flatMap.mpr ⟨rule, List.mem_filter.mpr ⟨hrule, ?_⟩, hselector⟩
  simp [hother]

theorem exists_name_mem_properties
    {rules : List Rule} {place : Place} {style : Style}
    (hstyle : (StyleForest.ofRules rules).styleAt? place = some style)
    {application : Rule × String} (hmem : application ∈ applications rules)
    (hplace : target? application.2 = some place)
    {property : Property} (hproperty : property ∈ appliedProperties application) :
    ∃ left ∈ style.properties, left.name = property.name := by
  have hlayer : appliedProperties application ∈ layersAt (stylings rules) place := by
    rw [layersAt_stylings]
    apply List.mem_map_of_mem
    exact List.mem_filter.mpr ⟨hmem, decide_eq_true hplace⟩
  have hname : property.name ∈ (cascade (layersAt (stylings rules) place)).map (·.name) := by
    apply name_mem_cascade
    exact List.mem_map_of_mem (List.mem_flatten.mpr ⟨_, hlayer, hproperty⟩)
  rw [StyleForest.properties_of_styleAt? hstyle]
  exact List.mem_map.mp hname

theorem mem_properties_of_last
    {rules : List Rule} {place : Place} {style : Style}
    (hstyle : (StyleForest.ofRules rules).styleAt? place = some style)
    {before behind : List (Rule × String)} {application : Rule × String}
    (happlications : applications rules = before ++ application :: behind)
    (hplace : target? application.2 = some place)
    {property : Property} (hproperty : property ∈ appliedProperties application)
    (hlast : ∀ later ∈ behind, target? later.2 = some place →
      ∀ other ∈ appliedProperties later, other.name ≠ property.name) :
    property ∈ style.properties := by
  rw [StyleForest.properties_of_styleAt? hstyle, layersAt_stylings, happlications,
    List.filter_append, List.filter_cons_of_pos (by simpa using hplace),
    List.map_append, List.map_cons]
  apply mem_cascade_of_not_named hproperty
  intro hnamed
  rcases List.mem_map.mp hnamed with ⟨other, hother, hname⟩
  rcases List.mem_flatten.mp hother with ⟨layer, hlayer, hotherLayer⟩
  rcases List.mem_map.mp hlayer with ⟨later, hlater, rfl⟩
  rcases List.mem_filter.mp hlater with ⟨hbehind, htarget⟩
  exact hlast later hbehind (of_decide_eq_true htarget) other hotherLayer hname

theorem exists_application_of_mem_properties
    {rules : List Rule} {place : Place} {style : Style}
    (hstyle : (StyleForest.ofRules rules).styleAt? place = some style)
    {property : Property} (hproperty : property ∈ style.properties) :
    ∃ application ∈ applications rules,
      target? application.2 = some place ∧
      property ∈ appliedProperties application := by
  rw [StyleForest.properties_of_styleAt? hstyle, layersAt_stylings] at hproperty
  obtain ⟨layer, hlayer, hmem⟩ :=
    List.mem_flatten.mp (mem_flatten_of_mem_cascade hproperty)
  rcases List.mem_map.mp hlayer with ⟨application, hkept, rfl⟩
  rcases List.mem_filter.mp hkept with ⟨happlication, htarget⟩
  exact ⟨application, happlication, of_decide_eq_true htarget, hmem⟩

theorem exists_rules_of_attempt
    {options : LoadOptions} {css source : String} {theme : Theme}
    (hload : (options.attempt css source).1 = .ok theme) :
    ∃ rules, readStylesheet css = .ok rules ∧
      (options.build source rules).1 = .ok theme := by
  unfold LoadOptions.attempt at hload
  cases hread : readStylesheet css with
  | error fault =>
      rw [hread] at hload
      cases hload
  | ok rules =>
      rw [hread] at hload
      exact ⟨rules, rfl, hload⟩

/-- What a stylesheet declares and what its styles have, both ways. -/
theorem properties_of_attempt
    {options : LoadOptions} {css source : String} {theme : Theme}
    (hload : (options.attempt css source).1 = .ok theme) :
    ∃ rules, readStylesheet css = .ok rules ∧
      (∀ before rule selector behind,
        applications rules = before ++ (rule, selector) :: behind →
          ∀ declaration ∈ rule.declarations,
            ∃ place style,
              target? selector = some place ∧
              (StyleForest.ofRules rules).styleAt? place = some style ∧
              style ∈ theme.styles ∧
              (∃ property ∈ style.properties,
                property.name = (Property.ofDeclaration selector declaration).name) ∧
              ((∀ later ∈ behind, target? later.2 = some place →
                  ∀ other ∈ later.1.declarations,
                    (Property.ofDeclaration later.2 other).name ≠
                      (Property.ofDeclaration selector declaration).name) →
                Property.ofDeclaration selector declaration ∈ style.properties)) ∧
      (∀ style ∈ theme.styles, ∀ property ∈ style.properties,
        ∃ rule selector declaration place,
          (rule, selector) ∈ applications rules ∧
          declaration ∈ rule.declarations ∧
          property = Property.ofDeclaration selector declaration ∧
          target? selector = some place ∧
          (StyleForest.ofRules rules).styleAt? place = some style) := by
  obtain ⟨rules, hread, hbuild⟩ := exists_rules_of_attempt hload
  refine ⟨rules, hread, ?_, ?_⟩
  · intro before rule selector behind happlications declaration hdeclaration
    have hmem : (rule, selector) ∈ applications rules := by
      rw [happlications]
      simp
    rcases mem_applications.mp hmem with ⟨hrule, -, hselector⟩
    have hsegments := segments_ne_nil_of_readStylesheet hread rule hrule selector hselector
    have hline : chain selector ∈ styledLines rules := by
      apply mem_styledLines.mpr
      exact ⟨by simpa [chain] using hsegments, selector,
        mem_styledSelectors hmem, List.prefix_refl _⟩
    obtain ⟨place, style, hplace, hstyle, hstyles⟩ :=
      exists_styleAt?_of_mem_styledLines hbuild hline
    have hproperty : Property.ofDeclaration selector declaration ∈
        appliedProperties (rule, selector) :=
      List.mem_map_of_mem hdeclaration
    refine ⟨place, style, hplace, hstyle, hstyles, ?_, ?_⟩
    · exact exists_name_mem_properties hstyle hmem hplace hproperty
    · intro hlast
      apply mem_properties_of_last hstyle happlications hplace hproperty
      intro later hlater htarget other hother
      rcases List.mem_map.mp hother with ⟨otherDeclaration, hotherDeclaration, rfl⟩
      exact hlast later hlater htarget otherDeclaration hotherDeclaration
  · intro style hstyle property hproperty
    rw [styles_of_build hbuild] at hstyle
    obtain ⟨place, hplace⟩ := (StyleForest.records_ofRules rules).exists_place hstyle
    have hat := (hplace place).mpr rfl
    obtain ⟨⟨rule, selector⟩, happlication, htarget, hmem⟩ :=
      exists_application_of_mem_properties hat hproperty
    rcases List.mem_map.mp hmem with ⟨declaration, hdeclaration, rfl⟩
    exact ⟨rule, selector, declaration, place, happlication, hdeclaration, rfl,
      htarget, hat⟩

def repeatingSheet : String :=
  "Theme\x7bName:Plain\x7dA\x7bcolor:red\x7dA\x7bcolor:blue\x7d"

def repeatingRules : List Rule :=
  [⟨["Theme"], [⟨"Name", "Plain"⟩]⟩, ⟨["A"], [⟨"color", "red"⟩]⟩,
    ⟨["A"], [⟨"color", "blue"⟩]⟩]

theorem readStylesheet_repeatingSheet :
    readStylesheet repeatingSheet = .ok repeatingRules := by
  have hlex : lex repeatingSheet.toList =
      plainRule "Theme".toList "Name".toList "Plain".toList ++
        (plainRule "A".toList "color".toList "red".toList ++
          (plainRule "A".toList "color".toList "blue".toList ++ [])) := by
    decide +kernel
  have hend : readRules [] = .ok [] := by
    rw [readRules]
    rfl
  rw [readStylesheet_eq_ok_iff, hlex]
  apply readRules_plainRule_append (by decide) (by decide)
  apply readRules_plainRule_append (by decide) (by decide)
  exact readRules_plainRule_append (by decide) (by decide) hend

theorem properties_of_attempt_repeatingSheet :
    ∃ theme,
      (({} : LoadOptions).attempt repeatingSheet "plain.css").1 = .ok theme ∧
      ∃ style ∈ theme.styles, Property.mk "color" "blue" ∈ style.properties := by
  obtain ⟨theme, hbuild⟩ : ∃ theme,
      (({} : LoadOptions).build "plain.css" repeatingRules).1 = .ok theme :=
    ⟨_, rfl⟩
  have hload :
      (({} : LoadOptions).attempt repeatingSheet "plain.css").1 = .ok theme := by
    rw [LoadOptions.attempt, readStylesheet_repeatingSheet]
    exact hbuild
  obtain ⟨rules, hread, hdeclared, -⟩ := properties_of_attempt hload
  rw [readStylesheet_repeatingSheet, Except.ok.injEq] at hread
  subst hread
  obtain ⟨place, style, -, -, hstyle, -, hlast⟩ :=
    hdeclared [(⟨["A"], [⟨"color", "red"⟩]⟩, "A")] ⟨["A"], [⟨"color", "blue"⟩]⟩ "A" []
      (by decide) ⟨"color", "blue"⟩ (by decide)
  exact ⟨theme, hload, style, hstyle, hlast (by simp)⟩

end ThemeSheet

import ThemeSheet.Proofs.Lookup
import ThemeSheet.Proofs.Repetition

/-!
# Rules that change places

Under one name, only the last layer that has it stands.  So two rules next to
each other may change places if at no place both declare one name.  The styles
are numbered differently then, and the properties of a style may stand in a
different order, but the same places have styles, and each name says the same.
-/

namespace ThemeSheet

/-- Whether two rules never declare one name at one place. -/
def DeclareApart (first second : Rule) : Prop :=
  ∀ selector ∈ first.selectors, ∀ other ∈ second.selectors,
    (target? selector).isSome → target? other = target? selector →
      ∀ declaration ∈ first.declarations, ∀ rival ∈ second.declarations,
        (Property.ofDeclaration selector declaration).name ≠
          (Property.ofDeclaration other rival).name
deriving Decidable

/-- Whether two forests have styles at the same places, and the same under each
name there. -/
structure StyleForest.SaysTheSame (first second : StyleForest) : Prop where
  places : ∀ place, place ∈ first.places ↔ place ∈ second.places
  named : ∀ place name,
    namedBy name (first.propertiesAt place) = namedBy name (second.propertiesAt place)

/-! ## Layers that change places -/

section Layers

variable {name : String} {front back : List (List Property)}

theorem standing_append (name : String) (front back : List (List Property)) :
    standing name (front ++ back) =
      if standing name back = [] then standing name front else standing name back := by
  induction front with
  | nil =>
      by_cases hback : standing name back = []
      · rw [if_pos hback, List.nil_append, hback]
        rfl
      · rw [if_neg hback, List.nil_append]
  | cons layer front ih =>
      rw [List.cons_append, standing, ih, standing]
      by_cases hback : standing name back = []
      · simp only [if_pos hback]
      · simp only [if_neg hback]

/-- Layers may change places where one side does not have the name. -/
theorem standing_append_comm (hnone : standing name front = [] ∨ standing name back = []) :
    standing name (front ++ back) = standing name (back ++ front) := by
  rw [standing_append, standing_append]
  rcases hnone with hfront | hback
  · rw [if_pos hfront, hfront]
    split
    next hback => exact hback.symm
    next => rfl
  · rw [if_pos hback, hback]
    split
    next hfront => exact hfront
    next => rfl

end Layers

section Exchange

theorem styledLines_perm {rules others : List Rule} (hperm : rules.Perm others) :
    (styledLines rules).Perm (styledLines others) :=
  ((hperm.filter _).flatMap_right _).flatMap_right _

variable {first second : Rule} {place : Place} {name : String}

theorem mem_layersAt_rule {rule : Rule} {layer : List Property}
    (hlayer : layer ∈ layersAt (stylings [rule]) place) :
    ∃ selector ∈ rule.selectors, target? selector = some place ∧
      layer = rule.declarations.map (Property.ofDeclaration selector) := by
  obtain ⟨⟨selector, properties⟩, hstyling, rfl⟩ := List.mem_map.mp hlayer
  rw [List.mem_filter, decide_eq_true_eq] at hstyling
  obtain ⟨hmem, htarget⟩ := hstyling
  obtain ⟨found, hfound, hpair⟩ := List.mem_flatMap.mp hmem
  obtain rfl : found = rule := List.mem_singleton.mp (List.mem_filter.mp hfound).1
  obtain ⟨other, hother, heq⟩ := List.mem_map.mp hpair
  rw [Prod.mk.injEq] at heq
  obtain ⟨rfl, rfl⟩ := heq
  exact ⟨other, hother, htarget, rfl⟩

/-- What a rule says under a name at a place comes from one of its selectors. -/
theorem exists_of_standing_rule_ne_nil {rule : Rule}
    (hstanding : standing name (layersAt (stylings [rule]) place) ≠ []) :
    ∃ selector ∈ rule.selectors, target? selector = some place ∧
      ∃ declaration ∈ rule.declarations,
        (Property.ofDeclaration selector declaration).name = name := by
  rw [Ne, standing_eq_nil_iff, namedBy_eq_nil_iff, not_not] at hstanding
  obtain ⟨property, hproperty, hname⟩ := List.mem_map.mp hstanding
  obtain ⟨layer, hlayer, hmem⟩ := List.mem_flatten.mp hproperty
  obtain ⟨selector, hselector, htarget, rfl⟩ := mem_layersAt_rule hlayer
  obtain ⟨declaration, hdeclaration, rfl⟩ := List.mem_map.mp hmem
  exact ⟨selector, hselector, htarget, declaration, hdeclaration, hname⟩

theorem DeclareApart.standing_eq_nil (hapart : DeclareApart first second)
    (place : Place) (name : String) :
    standing name (layersAt (stylings [first]) place) = [] ∨
      standing name (layersAt (stylings [second]) place) = [] := by
  by_contra hboth
  rw [not_or] at hboth
  obtain ⟨selector, hselector, htarget, declaration, hdeclaration, hname⟩ :=
    exists_of_standing_rule_ne_nil hboth.1
  obtain ⟨other, hother, hotherTarget, rival, hrival, hrivalName⟩ :=
    exists_of_standing_rule_ne_nil hboth.2
  exact hapart selector hselector other hother (by rw [htarget]; rfl)
    (hotherTarget.trans htarget.symm) declaration hdeclaration rival hrival
    (hname.trans hrivalName.symm)

theorem standing_stylings_exchange (hapart : DeclareApart first second)
    (before behind : List Rule) (place : Place) (name : String) :
    standing name (layersAt (stylings (before ++ first :: second :: behind)) place) =
      standing name (layersAt (stylings (before ++ second :: first :: behind)) place) := by
  have hsplit : ∀ one two : Rule,
      layersAt (stylings (before ++ one :: two :: behind)) place =
        layersAt (stylings before) place ++
          ((layersAt (stylings [one]) place ++ layersAt (stylings [two]) place) ++
            layersAt (stylings behind) place) := by
    intro one two
    have hrules : before ++ one :: two :: behind =
        before ++ (([one] ++ [two]) ++ behind) :=
      rfl
    rw [hrules, stylings_append, stylings_append, stylings_append, layersAt_append,
      layersAt_append, layersAt_append]
  have hpair : standing name
      (layersAt (stylings [first]) place ++ layersAt (stylings [second]) place) =
      standing name
        (layersAt (stylings [second]) place ++ layersAt (stylings [first]) place) :=
    standing_append_comm (hapart.standing_eq_nil place name)
  rw [hsplit first second, hsplit second first]
  simp only [standing_append name (layersAt (stylings before) place),
    standing_append name (_ ++ _) (layersAt (stylings behind) place), hpair]

theorem saysTheSame_exchange (hapart : DeclareApart first second)
    (before behind : List Rule) :
    (StyleForest.ofRules (before ++ first :: second :: behind)).SaysTheSame
      (StyleForest.ofRules (before ++ second :: first :: behind)) where
  places := by
    intro place
    have hlines : (styledLines (before ++ first :: second :: behind)).Perm
        (styledLines (before ++ second :: first :: behind)) :=
      styledLines_perm ((List.Perm.swap second first behind).append_left before)
    rw [(StyleForest.records_ofRules _).mem_places_iff,
      (StyleForest.records_ofRules _).mem_places_iff]
    simp only [hlines.mem_iff]
  named := by
    intro place name
    rw [StyleForest.ofRules_eq_grown, StyleForest.ofRules_eq_grown,
      StyleForest.propertiesAt_grown, StyleForest.propertiesAt_grown, namedBy_cascade,
      namedBy_cascade]
    exact standing_stylings_exchange hapart before behind place name

end Exchange

/-- Rules next to each other that declare apart may change places: the theme says
the same about itself, and each of its styles the same under each name. -/
theorem build_exchange (options : LoadOptions) (source : String)
    (before behind : List Rule) {first second : Rule}
    (hfirst : first.isTheme = false) (hsecond : second.isTheme = false)
    (hapart : DeclareApart first second) :
    let rules := before ++ first :: second :: behind
    let exchanged := before ++ second :: first :: behind
    (options.build source exchanged).1 =
        (options.build source rules).1.map (fun theme =>
          { theme with styles := (StyleForest.ofRules exchanged).styles }) ∧
      diagnostics (options.build source exchanged).2 =
        diagnostics (options.build source rules).2 ∧
      (∀ theme, (options.build source rules).1 = .ok theme →
        theme.styles = (StyleForest.ofRules rules).styles) ∧
      (StyleForest.ofRules rules).SaysTheSame (StyleForest.ofRules exchanged) := by
  intro rules exchanged
  have hlast : ∀ name, lastValue? (themeEntries exchanged) name =
      lastValue? (themeEntries rules) name := by
    simp [rules, exchanged, themeEntries, hfirst, hsecond]
  exact ⟨(build_of_lastValue?_eq hlast).1, (build_of_lastValue?_eq hlast).2,
    fun _ => styles_of_build, saysTheSame_exchange hapart before behind⟩

def nameRule : Rule := ⟨["Theme"], [⟨"Name", "Plain"⟩]⟩

def partRule : Rule := ⟨["A::Label", "B"], [⟨"color", "red"⟩]⟩

/-- Declares for the same style as `partRule`, under names of its own. -/
def stateRule : Rule := ⟨["A::Label"], [⟨"hover-color", "green"⟩, ⟨"width", "2"⟩]⟩

theorem build_exchange_partRule :
    partRule.isTheme = false ∧ stateRule.isTheme = false ∧
      DeclareApart partRule stateRule ∧
      ∃ theme,
        (({} : LoadOptions).build "plain.css" [nameRule, partRule, stateRule]).1 =
          .ok theme ∧
        (({} : LoadOptions).build "plain.css" [nameRule, stateRule, partRule]).1 =
          .ok { theme with
            styles := (StyleForest.ofRules [nameRule, stateRule, partRule]).styles } ∧
        (StyleForest.ofRules [nameRule, partRule, stateRule]).SaysTheSame
          (StyleForest.ofRules [nameRule, stateRule, partRule]) := by
  obtain ⟨theme, hbuild⟩ : ∃ theme,
      (({} : LoadOptions).build "plain.css" [nameRule, partRule, stateRule]).1 =
        .ok theme :=
    ⟨_, rfl⟩
  have hapart : DeclareApart partRule stateRule := by decide
  obtain ⟨hresult, -, -, hsame⟩ :=
    build_exchange {} "plain.css" [nameRule] [] (by decide) (by decide) hapart
  refine ⟨by decide, by decide, hapart, theme, hbuild, ?_, hsame⟩
  rw [List.singleton_append, List.singleton_append, hbuild] at hresult
  exact hresult

end ThemeSheet

import ThemeSheet.Load.Build
import ThemeSheet.Proofs.ForestGrowth

/-!
# What a theme says about itself

The pass over the rules keeps the entries of the theme apart from its styles.
So the two kinds of rules do not see each other: only the order within each
kind counts, and of the entries with one name only the last.
-/

namespace ThemeSheet

/-- The declarations of all rules that describe the theme. -/
def themeEntries (rules : List Rule) : List Declaration :=
  (rules.filter (·.isTheme)).flatMap (·.declarations)

/-- Whether a value is the last that the theme is given under a name. -/
def LastDeclared (rules : List Rule) (name value : String) : Prop :=
  ∃ before behind, themeEntries rules = before ++ ⟨name, value⟩ :: behind ∧
    ∀ later ∈ behind, later.name ≠ name

section Entries

variable {rules : List Rule} {entries : List Declaration} {name value : String}

theorem mem_themeEntries {declaration : Declaration} :
    declaration ∈ themeEntries rules ↔
      ∃ rule ∈ rules, rule.isTheme ∧ declaration ∈ rule.declarations := by
  simp [themeEntries, and_assoc]

theorem themeEntries_eq_nil_iff :
    themeEntries rules = [] ↔ ∀ rule ∈ rules, rule.isTheme → rule.declarations = [] := by
  simp [themeEntries]

theorem lastValue?_eq_some_iff :
    lastValue? entries name = some value ↔
      ∃ before behind, entries = before ++ ⟨name, value⟩ :: behind ∧
        ∀ later ∈ behind, later.name ≠ name := by
  rw [lastValue?, Option.map_eq_some_iff]
  constructor
  · rintro ⟨⟨_, _⟩, hfind, rfl⟩
    obtain ⟨hname, behind, before, hsplit, hbehind⟩ :=
      List.find?_eq_some_iff_append.mp hfind
    rw [decide_eq_true_eq] at hname
    subst hname
    refine ⟨before.reverse, behind.reverse, ?_, ?_⟩
    · rw [← List.reverse_reverse entries, hsplit]
      simp
    · intro later hlater
      simpa using hbehind later (List.mem_reverse.mp hlater)
  · rintro ⟨before, behind, rfl, hbehind⟩
    refine ⟨⟨name, value⟩, ?_, rfl⟩
    rw [List.find?_eq_some_iff_append]
    refine ⟨decide_eq_true rfl, behind.reverse, before.reverse, by simp, ?_⟩
    intro later hlater
    simpa using hbehind later (List.mem_reverse.mp hlater)

theorem lastValue?_eq_none_iff :
    lastValue? entries name = none ↔ ∀ entry ∈ entries, entry.name ≠ name := by
  simp [lastValue?]

theorem eq_nil_iff_lastValue?_eq_none :
    entries = [] ↔ ∀ name, lastValue? entries name = none := by
  constructor
  · rintro rfl name
    rfl
  · intro hnone
    rw [List.eq_nil_iff_forall_not_mem]
    intro entry hentry
    exact lastValue?_eq_none_iff.mp (hnone entry.name) entry hentry rfl

end Entries

/-! ## The pass over the rules -/

theorem Collected.entries_add (collected : Collected) (rule : Rule) :
    (collected.add rule).entries = collected.entries ++ themeEntries [rule] := by
  by_cases htheme : rule.isTheme
  · simp [add, themeEntries, htheme]
  · simp [add, themeEntries, htheme]

theorem Collected.entries_ofRules (rules : List Rule) :
    (Collected.ofRules rules).entries = themeEntries rules := by
  induction rules using List.reverseRecOn with
  | nil => rfl
  | append_singleton rules rule ih =>
      have hstep : (Collected.ofRules (rules ++ [rule])).entries =
          ((Collected.ofRules rules).add rule).entries := by
        simp [Collected.ofRules]
      have hentries : themeEntries (rules ++ [rule]) =
          themeEntries rules ++ themeEntries [rule] := by
        simp [themeEntries]
      rw [hstep, entries_add, ih, hentries]

theorem Collected.ofRules_eq (rules : List Rule) :
    Collected.ofRules rules = ⟨themeEntries rules, StyleForest.ofRules rules⟩ := by
  rw [← entries_ofRules]
  rfl

theorem ofRules_congr {rules others : List Rule}
    (hothers : others.filter (fun rule => !rule.isTheme) =
      rules.filter (fun rule => !rule.isTheme)) :
    StyleForest.ofRules others = StyleForest.ofRules rules := by
  rw [StyleForest.ofRules_eq_grown, StyleForest.ofRules_eq_grown, stylings, stylings,
    hothers]

section Build

variable {options : LoadOptions} {source : String} {rules others : List Rule}

theorem build_of_entries_eq_nil (hentries : themeEntries rules = []) :
    options.build source rules = (.error .missingThemeSelector, []) := by
  simp [LoadOptions.build, Collected.ofRules_eq, hentries]

theorem build_of_name_eq_none (hentries : themeEntries rules ≠ [])
    (hname : lastValue? (themeEntries rules) "Name" = none) :
    options.build source rules = (.error .missingThemeName, []) := by
  simp [LoadOptions.build, Collected.ofRules_eq, hentries, hname]

theorem build_of_name_eq_some {name : String}
    (hname : lastValue? (themeEntries rules) "Name" = some name) :
    options.build source rules =
      (.ok
        { name := name
          source := source
          baseDirectory := lastValue? (themeEntries rules) "BaseDirectory"
          unitSize :=
            (options.resolveUnitSize source
              (lastValue? (themeEntries rules) "UnitSize")).1
          isUnitSizeSet := (lastValue? (themeEntries rules) "UnitSize").isSome
          styles := (StyleForest.ofRules rules).styles },
        (options.resolveUnitSize source
          (lastValue? (themeEntries rules) "UnitSize")).2 ++
          [.compiled name source rules.length (StyleForest.ofRules rules).styles.length]) := by
  have hentries : themeEntries rules ≠ [] := by
    intro hnil
    rw [hnil] at hname
    cases hname
  simp [LoadOptions.build, Collected.ofRules_eq, hentries, hname]

theorem exists_name_of_build_eq_ok {theme : Theme}
    (hbuild : (options.build source rules).1 = .ok theme) :
    ∃ name, lastValue? (themeEntries rules) "Name" = some name := by
  by_cases hentries : themeEntries rules = []
  · rw [build_of_entries_eq_nil hentries] at hbuild
    cases hbuild
  · cases hname : lastValue? (themeEntries rules) "Name" with
    | some name => exact ⟨name, rfl⟩
    | none =>
        rw [build_of_name_eq_none hentries hname] at hbuild
        cases hbuild

/-- The record of what was compiled is no report. -/
theorem diagnostics_of_name_eq_some {name : String}
    (hname : lastValue? (themeEntries rules) "Name" = some name) :
    diagnostics (options.build source rules).2 =
      diagnostics (options.resolveUnitSize source
        (lastValue? (themeEntries rules) "UnitSize")).2 := by
  rw [build_of_name_eq_some hname, diagnostics, List.filterMap_append,
    List.filterMap_cons_none rfl, List.filterMap_nil, List.append_nil, diagnostics]

/-- Apart from its styles, a theme is what the last entries say. -/
theorem build_of_lastValue?_eq
    (hlast : ∀ name, lastValue? (themeEntries others) name =
      lastValue? (themeEntries rules) name) :
    (options.build source others).1 =
        (options.build source rules).1.map (fun theme =>
          { theme with styles := (StyleForest.ofRules others).styles }) ∧
      diagnostics (options.build source others).2 =
        diagnostics (options.build source rules).2 := by
  have hempty : themeEntries others = [] ↔ themeEntries rules = [] := by
    rw [eq_nil_iff_lastValue?_eq_none, eq_nil_iff_lastValue?_eq_none]
    simp only [hlast]
  by_cases hnil : themeEntries rules = []
  · rw [build_of_entries_eq_nil hnil, build_of_entries_eq_nil (hempty.mpr hnil)]
    exact ⟨rfl, rfl⟩
  · have hother : themeEntries others ≠ [] := fun heq => hnil (hempty.mp heq)
    cases hname : lastValue? (themeEntries rules) "Name" with
    | none =>
        rw [build_of_name_eq_none hnil hname,
          build_of_name_eq_none hother ((hlast "Name").trans hname)]
        exact ⟨rfl, rfl⟩
    | some name =>
        have hotherName := (hlast "Name").trans hname
        rw [diagnostics_of_name_eq_some hname, diagnostics_of_name_eq_some hotherName,
          build_of_name_eq_some hname, build_of_name_eq_some hotherName, hlast, hlast]
        exact ⟨rfl, rfl⟩

theorem build_congr
    (htheme : others.filter (·.isTheme) = rules.filter (·.isTheme))
    (hothers : others.filter (fun rule => !rule.isTheme) =
      rules.filter (fun rule => !rule.isTheme)) :
    options.build source others = options.build source rules := by
  have hentries : themeEntries others = themeEntries rules := by
    rw [themeEntries, htheme, themeEntries]
  have hlength : others.length = rules.length := by
    rw [List.length_eq_length_filter_add (·.isTheme), htheme, hothers,
      ← List.length_eq_length_filter_add]
  simp only [LoadOptions.build, Collected.ofRules_eq, hentries, ofRules_congr hothers,
    hlength]

theorem build_eq_missingThemeSelector_iff :
    (options.build source rules).1 = .error .missingThemeSelector ↔
      ∀ rule ∈ rules, rule.isTheme → rule.declarations = [] := by
  rw [← themeEntries_eq_nil_iff]
  constructor
  · intro hbuild
    by_contra hentries
    cases hname : lastValue? (themeEntries rules) "Name" with
    | none =>
        rw [build_of_name_eq_none hentries hname] at hbuild
        cases hbuild
    | some name =>
        rw [build_of_name_eq_some hname] at hbuild
        cases hbuild
  · intro hentries
    rw [build_of_entries_eq_nil hentries]

theorem build_eq_missingThemeName_iff :
    (options.build source rules).1 = .error .missingThemeName ↔
      (∃ rule ∈ rules, rule.isTheme ∧ rule.declarations ≠ []) ∧
      ∀ rule ∈ rules, rule.isTheme →
        ∀ declaration ∈ rule.declarations, declaration.name ≠ "Name" := by
  have hsome : (∃ rule ∈ rules, rule.isTheme ∧ rule.declarations ≠ []) ↔
      themeEntries rules ≠ [] := by
    rw [Ne, themeEntries_eq_nil_iff]
    simp
  have hnone : (∀ rule ∈ rules, rule.isTheme →
      ∀ declaration ∈ rule.declarations, declaration.name ≠ "Name") ↔
      lastValue? (themeEntries rules) "Name" = none := by
    rw [lastValue?_eq_none_iff]
    constructor
    · intro hother declaration hmem
      rcases mem_themeEntries.mp hmem with ⟨rule, hrule, htheme, hdeclaration⟩
      exact hother rule hrule htheme declaration hdeclaration
    · intro hother rule hrule htheme declaration hdeclaration
      exact hother declaration
        (mem_themeEntries.mpr ⟨rule, hrule, htheme, hdeclaration⟩)
  rw [hsome, hnone]
  constructor
  · intro hbuild
    by_cases hentries : themeEntries rules = []
    · rw [build_of_entries_eq_nil hentries] at hbuild
      cases hbuild
    · refine ⟨hentries, ?_⟩
      cases hname : lastValue? (themeEntries rules) "Name" with
      | none => rfl
      | some name =>
          rw [build_of_name_eq_some hname] at hbuild
          cases hbuild
  · rintro ⟨hentries, hname⟩
    rw [build_of_name_eq_none hentries hname]

theorem events_of_build_eq_error {failure : Failure}
    (hbuild : (options.build source rules).1 = .error failure) :
    (options.build source rules).2 = [] := by
  by_cases hentries : themeEntries rules = []
  · rw [build_of_entries_eq_nil hentries]
  · cases hname : lastValue? (themeEntries rules) "Name" with
    | none => rw [build_of_name_eq_none hentries hname]
    | some name =>
        rw [build_of_name_eq_some hname] at hbuild
        cases hbuild

end Build

/-- What a theme says about itself, and what it has to say. -/
theorem build_of_rules (options : LoadOptions) (source : String) (rules : List Rule) :
    ((options.build source rules).1 = .error .missingThemeSelector ↔
      ∀ rule ∈ rules, rule.isTheme → rule.declarations = []) ∧
    ((options.build source rules).1 = .error .missingThemeName ↔
      (∃ rule ∈ rules, rule.isTheme ∧ rule.declarations ≠ []) ∧
      ∀ rule ∈ rules, rule.isTheme →
        ∀ declaration ∈ rule.declarations, declaration.name ≠ "Name") ∧
    ((∃ rule ∈ rules, rule.isTheme ∧
        ∃ declaration ∈ rule.declarations, declaration.name = "Name") →
      ∃ theme unitSize?,
        (options.build source rules).1 = .ok theme ∧
        LastDeclared rules "Name" theme.name ∧
        (∀ value, theme.baseDirectory = some value ↔
          LastDeclared rules "BaseDirectory" value) ∧
        (∀ value, unitSize? = some value ↔ LastDeclared rules "UnitSize" value) ∧
        theme.isUnitSizeSet = unitSize?.isSome ∧
        theme.unitSize = (options.resolveUnitSize source unitSize?).1 ∧
        diagnostics (options.build source rules).2 =
          diagnostics (options.resolveUnitSize source unitSize?).2) ∧
    (∀ failure, (options.build source rules).1 = .error failure →
      (options.build source rules).2 = []) ∧
    ∀ others : List Rule,
      others.filter (·.isTheme) = rules.filter (·.isTheme) →
      others.filter (fun rule => !rule.isTheme) =
        rules.filter (fun rule => !rule.isTheme) →
      options.build source others = options.build source rules := by
  refine ⟨build_eq_missingThemeSelector_iff, build_eq_missingThemeName_iff, ?_,
    fun failure => events_of_build_eq_error, fun others => build_congr⟩
  rintro ⟨rule, hrule, htheme, declaration, hdeclaration, hdeclared⟩
  have hentry : declaration ∈ themeEntries rules :=
    mem_themeEntries.mpr ⟨rule, hrule, htheme, hdeclaration⟩
  obtain ⟨name, hname⟩ := Option.ne_none_iff_exists'.mp
    (fun hnone => lastValue?_eq_none_iff.mp hnone declaration hentry hdeclared)
  rw [build_of_name_eq_some hname]
  refine ⟨_, lastValue? (themeEntries rules) "UnitSize", rfl,
    lastValue?_eq_some_iff.mp hname, fun value => lastValue?_eq_some_iff,
    fun value => lastValue?_eq_some_iff, rfl, rfl, ?_⟩
  simp [diagnostics, Event.report?]

def scatteredRules : List Rule :=
  [⟨["Theme"], [⟨"Name", "Plain"⟩]⟩, ⟨["A"], [⟨"color", "red"⟩]⟩,
    ⟨["Theme"], [⟨"UnitSize", "wide"⟩, ⟨"Name", "Bright"⟩]⟩]

def gatheredRules : List Rule :=
  [⟨["A"], [⟨"color", "red"⟩]⟩, ⟨["Theme"], [⟨"Name", "Plain"⟩]⟩,
    ⟨["Theme"], [⟨"UnitSize", "wide"⟩, ⟨"Name", "Bright"⟩]⟩]

theorem build_of_rules_scatteredRules :
    (∃ theme, (({} : LoadOptions).build "plain.css" scatteredRules).1 = .ok theme ∧
      LastDeclared scatteredRules "Name" theme.name) ∧
    ({} : LoadOptions).build "plain.css" gatheredRules =
      ({} : LoadOptions).build "plain.css" scatteredRules := by
  obtain ⟨-, -, hnamed, -, hothers⟩ := build_of_rules {} "plain.css" scatteredRules
  obtain ⟨theme, -, hbuild, hname, -⟩ := hnamed (by decide)
  exact ⟨⟨theme, hbuild, hname⟩, hothers gatheredRules (by decide) (by decide)⟩

end ThemeSheet

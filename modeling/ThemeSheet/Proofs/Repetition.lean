import ThemeSheet.Proofs.Cascade
import ThemeSheet.Proofs.Metadata

/-!
# Rules that are given twice

A forest is determined by the first line to each place and by what is left of
the declarations there.  Rules that come a second time lead along lines that
have been entered, and their layers stand in for the same layers of the first
time.  So nothing changes, neither in the styles nor in what the theme says
about itself.
-/

namespace ThemeSheet

/-! ## Forests that agree -/

namespace StyleForest

variable {first second : StyleForest} {visits others : List (List Selector)}
variable {index : Nat} {place : Place} {style other : Style}

theorem indexOf?_congr (hplaces : first.places = second.places) :
    first.indexOf? = second.indexOf? := by
  funext place
  rw [indexOf?_eq_findIdx?, indexOf?_eq_findIdx?, hplaces]

theorem Records.propertiesAt_of_mem (hrecords : first.Records visits)
    (hentry : first.entries[index]? = some (place, style)) :
    first.propertiesAt place = style.properties :=
  propertiesAt_of_styleAt? (hrecords.styleAt?_of_mem (List.mem_of_getElem? hentry))

/-- Styles at one place that come from one line are equal if they were left
with the same properties. -/
theorem Settled.style_eq (hplaces : first.places = second.places)
    (hfirst : first.Settled visits index place style)
    (hsecond : second.Settled others index place other)
    (hfind : visits.find? (fun visit => placeOf? visit = some place) =
      others.find? (fun visit => placeOf? visit = some place))
    (hproperties : style.properties = other.properties) : style = other := by
  obtain ⟨line, selector, hline, hselector, hparent⟩ := hfirst.origin
  obtain ⟨otherLine, otherSelector, hotherLine, hotherSelector, hotherParent⟩ :=
    hsecond.origin
  rw [hfind, hotherLine, Option.some.injEq] at hline
  obtain ⟨rfl, hlast⟩ := List.append_inj' hline rfl
  obtain rfl : otherSelector = selector := List.singleton_inj.mp hlast
  have hindex := hfirst.index_eq.trans hsecond.index_eq.symm
  rw [← hotherSelector] at hselector
  rw [indexOf?_congr hplaces, ← hotherParent] at hparent
  cases style
  cases other
  rw [Style.mk.injEq]
  exact ⟨hindex, hparent, hselector, hproperties⟩

/-- A forest is determined by the first lines to its places and by what was
left there. -/
theorem Records.eq_of_agree
    (hfirst : first.Records visits) (hsecond : second.Records others)
    (hplaces : first.places = second.places)
    (hfind : ∀ place,
      visits.find? (fun visit => placeOf? visit = some place) =
        others.find? (fun visit => placeOf? visit = some place))
    (hproperties : ∀ place, first.propertiesAt place = second.propertiesAt place) :
    first = second := by
  suffices hentries : first.entries = second.entries by
    cases first
    cases second
    exact congrArg StyleForest.mk hentries
  have hlength : first.entries.length = second.entries.length := by
    simpa [places] using congrArg List.length hplaces
  apply List.ext_getElem hlength
  intro index hlt hotherLt
  rcases hentry : first.entries[index] with ⟨place, style⟩
  rcases hotherEntry : second.entries[index] with ⟨otherPlace, other⟩
  have hget := List.getElem?_eq_some_iff.mpr ⟨hlt, hentry⟩
  have hotherGet := List.getElem?_eq_some_iff.mpr ⟨hotherLt, hotherEntry⟩
  obtain rfl : place = otherPlace := by
    have hplace := getElem?_places hget
    rw [hplaces, getElem?_places hotherGet, Option.some.injEq] at hplace
    exact hplace.symm
  have hleft : style.properties = other.properties := by
    rw [← hfirst.propertiesAt_of_mem hget, ← hsecond.propertiesAt_of_mem hotherGet,
      hproperties]
  rw [(hfirst.settled index place style hget).style_eq hplaces
    (hsecond.settled index place other hotherGet) (hfind place) hleft]

end StyleForest

/-! ## A second pass over the rules -/

section Twice

theorem eraseDups_append_self {α : Type} [BEq α] [LawfulBEq α] (row : List α) :
    (row ++ row).eraseDups = row.eraseDups := by
  have hnone : row.removeAll row = [] := by
    simp [List.removeAll]
  rw [List.eraseDups_append, hnone, List.eraseDups_nil, List.append_nil]

theorem find?_append_self {α : Type} (p : α → Bool) (row : List α) :
    (row ++ row).find? p = row.find? p := by
  rw [List.find?_append, Option.or_self]

theorem cascade_append (front back : List (List Property)) :
    cascade (front ++ back) =
      (cascade front).filter (fun property =>
        property.name ∉ back.flatten.map (·.name)) ++ cascade back := by
  induction front with
  | nil => rfl
  | cons layer front ih =>
      rw [List.cons_append, cascade, ih, cascade, List.filter_append,
        List.filter_filter, ← List.append_assoc]
      congr 3
      funext property
      simp [not_or, Bool.and_comm]

/-- Layers that come again stand in for all that they left before. -/
theorem cascade_append_self (layers : List (List Property)) :
    cascade (layers ++ layers) = cascade layers := by
  have hnone : (cascade layers).filter (fun property =>
      property.name ∉ layers.flatten.map (·.name)) = [] := by
    rw [List.filter_eq_nil_iff]
    intro property hproperty
    have hmem := mem_flatten_of_mem_cascade hproperty
    simpa using List.mem_map_of_mem (f := (·.name)) hmem
  rw [cascade_append, hnone, List.nil_append]

variable (rules : List Rule)

theorem stylings_append (more : List Rule) :
    stylings (rules ++ more) = stylings rules ++ stylings more := by
  simp [stylings]

theorem styledLines_append (more : List Rule) :
    styledLines (rules ++ more) = styledLines rules ++ styledLines more := by
  simp [styledLines, styledSelectors]

theorem themeEntries_append (more : List Rule) :
    themeEntries (rules ++ more) = themeEntries rules ++ themeEntries more := by
  simp [themeEntries]

theorem lastValue?_append_self (entries : List Declaration) (name : String) :
    lastValue? (entries ++ entries) name = lastValue? entries name := by
  rw [lastValue?, List.reverse_append, find?_append_self, lastValue?]

theorem StyleForest.ofRules_append_self :
    ofRules (rules ++ rules) = ofRules rules := by
  have hrecords := records_ofRules (rules ++ rules)
  rw [styledLines_append] at hrecords
  apply hrecords.eq_of_agree (records_ofRules rules)
  · rw [hrecords.places_eq, (records_ofRules rules).places_eq, List.filterMap_append,
      eraseDups_append_self]
  · exact fun place => find?_append_self _ (styledLines rules)
  · intro place
    rw [ofRules_eq_grown, ofRules_eq_grown, propertiesAt_grown, propertiesAt_grown,
      stylings_append, layersAt, List.filter_append, List.map_append,
      cascade_append_self]
    rfl

end Twice

/-- Rules that are given twice make the same theme, or fail in the same way, and
the same is reported. -/
theorem build_append_self (options : LoadOptions) (source : String) (rules : List Rule) :
    (options.build source (rules ++ rules)).1 = (options.build source rules).1 ∧
      diagnostics (options.build source (rules ++ rules)).2 =
        diagnostics (options.build source rules).2 := by
  have hlast := lastValue?_append_self (themeEntries rules)
  have hentries := themeEntries_append rules rules
  by_cases hnil : themeEntries rules = []
  · rw [build_of_entries_eq_nil hnil, build_of_entries_eq_nil (by rw [hentries, hnil]; rfl)]
    exact ⟨rfl, rfl⟩
  · have hne : themeEntries (rules ++ rules) ≠ [] := by
      rw [hentries]
      simpa using hnil
    cases hname : lastValue? (themeEntries rules) "Name" with
    | none =>
        rw [build_of_name_eq_none hnil hname,
          build_of_name_eq_none hne (by rw [hentries, hlast, hname])]
        exact ⟨rfl, rfl⟩
    | some name =>
        have htwice : lastValue? (themeEntries (rules ++ rules)) "Name" = some name := by
          rw [hentries, hlast, hname]
        constructor
        · rw [build_of_name_eq_some hname, build_of_name_eq_some htwice, hentries, hlast,
            hlast, StyleForest.ofRules_append_self]
        · rw [diagnostics_of_name_eq_some hname, diagnostics_of_name_eq_some htwice,
            hentries, hlast]

end ThemeSheet

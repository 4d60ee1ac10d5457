import ThemeSheet.Proofs.Lineage

/-!
# What survives of declarations

A style is given properties again and again, by rules and by the selectors in
them.  Each layer stands in for what it names, and leaves the rest in front of
it.  After all layers, a property is left exactly if no later layer names it.
-/

namespace ThemeSheet

/-! ## Layers of properties -/

/-- What is left of layers of properties, where a later layer takes the place
of all earlier properties that it names. -/
def cascade : List (List Property) → List Property
  | [] => []
  | layer :: later =>
      layer.filter (fun property =>
        property.name ∉ later.flatten.map (·.name)) ++ cascade later

theorem Property.beq_iff_name_eq (first second : Property) :
    (first == second) = true ↔ first.name = second.name :=
  beq_iff_eq (a := first.name)

theorem contains_iff_name_mem (layer : List Property) (property : Property) :
    layer.contains property = true ↔ property.name ∈ layer.map (·.name) := by
  rw [List.contains_iff_exists_mem_beq, List.mem_map]
  constructor
  · rintro ⟨other, hother, hname⟩
    exact ⟨other, hother, ((Property.beq_iff_name_eq property other).mp hname).symm⟩
  · rintro ⟨other, hother, hname⟩
    exact ⟨other, hother, (Property.beq_iff_name_eq property other).mpr hname.symm⟩

theorem cascade_append_singleton
    (layers : List (List Property)) (layer : List Property) :
    cascade (layers ++ [layer]) =
      (cascade layers).filter (fun old => !layer.contains old) ++ layer := by
  induction layers with
  | nil => simp [cascade]
  | cons first later ih =>
      have hkept : ∀ property ∈ first,
          decide (property.name ∉ (later ++ [layer]).flatten.map (·.name)) =
            (decide (property.name ∉ later.flatten.map (·.name)) &&
              !layer.contains property) := by
        intro property _
        have hnamed := contains_iff_name_mem layer property
        rw [Bool.eq_iff_iff]
        simp only [List.flatten_append, List.flatten_singleton, List.map_append,
          List.mem_append, not_or, decide_eq_true_eq, Bool.and_eq_true,
          Bool.not_eq_true', ← Bool.not_eq_true, hnamed]
      rw [List.cons_append, cascade, ih, List.filter_congr hkept, cascade,
        List.filter_append, List.filter_filter, List.append_assoc]
      simp only [Bool.and_comm]

theorem mem_flatten_of_mem_cascade
    {layers : List (List Property)} {property : Property}
    (hproperty : property ∈ cascade layers) : property ∈ layers.flatten := by
  induction layers with
  | nil => exact hproperty
  | cons layer later ih =>
      rw [List.flatten_cons, List.mem_append]
      rcases List.mem_append.mp hproperty with hfirst | hlater
      · exact Or.inl (List.mem_filter.mp hfirst).1
      · exact Or.inr (ih hlater)

theorem mem_cascade_of_not_named
    {before behind : List (List Property)} {layer : List Property}
    {property : Property} (hproperty : property ∈ layer)
    (hbehind : property.name ∉ behind.flatten.map (·.name)) :
    property ∈ cascade (before ++ layer :: behind) := by
  induction before with
  | nil =>
      have hkept : property ∈ layer.filter (fun property =>
          property.name ∉ behind.flatten.map (·.name)) :=
        List.mem_filter.mpr ⟨hproperty, by simpa using hbehind⟩
      exact List.mem_append_left _ hkept
  | cons first before ih => exact List.mem_append_right _ ih

theorem name_mem_cascade
    {layers : List (List Property)} {name : String}
    (hname : name ∈ layers.flatten.map (·.name)) :
    name ∈ (cascade layers).map (·.name) := by
  induction layers with
  | nil => exact hname
  | cons layer later ih =>
      rw [cascade, List.map_append, List.mem_append]
      by_cases hlater : name ∈ later.flatten.map (·.name)
      · exact Or.inr (ih hlater)
      · rw [List.flatten_cons, List.map_append, List.mem_append] at hname
        obtain ⟨property, hproperty, rfl⟩ :=
          List.mem_map.mp (hname.resolve_right hlater)
        refine Or.inl (List.mem_map.mpr ⟨property, ?_, rfl⟩)
        exact List.mem_filter.mpr ⟨hproperty, by simpa using hlater⟩

/-! ## Properties while the forest grows -/

namespace StyleForest

def propertiesAt (forest : StyleForest) (place : Place) : List Property :=
  ((forest.styleAt? place).map (·.properties)).getD []

theorem propertiesAt_of_styleAt? {forest : StyleForest} {place : Place}
    {style : Style} (hstyle : forest.styleAt? place = some style) :
    forest.propertiesAt place = style.properties := by
  unfold propertiesAt
  rw [hstyle]
  rfl

theorem propertiesAt_of_not_mem {forest : StyleForest} {place : Place}
    (hplace : place ∉ forest.places) : forest.propertiesAt place = [] := by
  rw [← indexOf?_eq_none_iff] at hplace
  unfold propertiesAt styleAt?
  rw [hplace]
  rfl

theorem styleAt?_append_singleton {forest : StyleForest} {entered : Place}
    (hnew : forest.indexOf? entered = none) (style : Style) (place : Place) :
    (StyleForest.mk (forest.entries ++ [(entered, style)])).styleAt? place =
      if place = entered then some style else forest.styleAt? place := by
  cases hindex : forest.indexOf? place with
  | some index =>
      have hne : place ≠ entered := by
        rintro rfl
        rw [hnew] at hindex
        cases hindex
      have hlt : index < (forest.entries.map (·.2)).length := by
        simpa using indexOf?_lt hindex
      rw [if_neg hne, styleAt?_of_indexOf? hindex]
      rw [indexOf?] at hindex
      rw [styleAt?, indexOf?, List.findIdx?_append, hindex, styles, List.map_append]
      exact List.getElem?_append_left hlt
  | none =>
      have hother : forest.styleAt? place = none := by
        rw [styleAt?, hindex, Option.bind_none]
      rw [hother]
      rw [indexOf?] at hindex
      rw [styleAt?, indexOf?, List.findIdx?_append, hindex, styles]
      by_cases heq : place = entered
      · simp [heq]
      · simp [heq, Ne.symm heq]

theorem propertiesAt_enter (forest : StyleForest) (entered : Place)
    (parent : Option Nat) (selector : Selector) (place : Place) :
    (forest.enter entered parent selector).1.propertiesAt place =
      forest.propertiesAt place := by
  cases hentered : forest.indexOf? entered with
  | some index => rw [enter_of_mem hentered]
  | none =>
      rw [enter_of_not_mem hentered, propertiesAt,
        styleAt?_append_singleton hentered]
      by_cases heq : place = entered
      · rw [if_pos heq, propertiesAt, styleAt?, heq, hentered]
        rfl
      · rw [if_neg heq, propertiesAt]

theorem propertiesAt_descend (forest : StyleForest) (path : List Char)
    (parent : Option Nat) (line : List Selector) (place : Place) :
    (forest.descend path parent line).1.propertiesAt place =
      forest.propertiesAt place := by
  induction line generalizing forest path parent with
  | nil => rfl
  | cons selector rest ih =>
      rw [descend, ih, propertiesAt_enter]

theorem propertiesAt_declareAt {forest : StyleForest} {place : Place} {index : Nat}
    (hindex : forest.indexOf? place = some index) (declared : Nat)
    (properties : List Property) :
    (forest.declareAt declared properties).propertiesAt place =
      if index = declared then
        (forest.propertiesAt place).filter (fun old => !properties.contains old) ++
          properties
      else forest.propertiesAt place := by
  have hdeclared : (forest.declareAt declared properties).indexOf? place = some index := by
    rw [indexOf?_declareAt, hindex]
  rw [propertiesAt, styleAt?_of_indexOf? hdeclared, propertiesAt,
    styleAt?_of_indexOf? hindex, styles, styles, List.getElem?_map,
    List.getElem?_map, getElem?_declareAt]
  have hlt := indexOf?_lt hindex
  rw [List.getElem?_eq_getElem hlt]
  by_cases heq : index = declared
  · simp [heq, Style.declare]
  · simp [heq]

/-- A styling adds its layer to what its selector ends in, and nowhere else. -/
theorem Records.propertiesAt_declare
    {forest : StyleForest} {visits : List (List Selector)}
    (hrecords : forest.Records visits) (selector : String)
    (properties : List Property) (place : Place) :
    (forest.declare selector properties).propertiesAt place =
      if target? selector = some place then
        (forest.propertiesAt place).filter (fun old => !properties.contains old) ++
          properties
      else forest.propertiesAt place := by
  have hgrown : (forest.growTo selector).propertiesAt place =
      forest.propertiesAt place :=
    propertiesAt_descend forest [] none (chain selector) place
  rw [declare_eq hrecords, ← hgrown]
  by_cases htarget : target? selector = some place
  · have hline : chain selector ∈ lines selector := by
      refine mem_lines.mpr ⟨?_, List.prefix_refl _⟩
      intro hnil
      rw [target?, hnil] at htarget
      cases htarget
    have hplace : place ∈ (forest.growTo selector).places :=
      ((hrecords.growTo selector).mem_places_iff place).mpr
        ⟨chain selector, List.mem_append_right _ hline, htarget⟩
    obtain ⟨index, hindex⟩ := Option.ne_none_iff_exists'.mp
      (fun hnone => (indexOf?_eq_none_iff _ place).mp hnone hplace)
    rw [if_pos htarget, htarget, Option.bind_some, hindex]
    simp only
    rw [propertiesAt_declareAt hindex, if_pos rfl]
  · rw [if_neg htarget]
    split
    next declared hdeclared =>
      rcases Option.bind_eq_some_iff.mp hdeclared with ⟨other, hother, hdeclaredAt⟩
      cases hindex : (forest.growTo selector).indexOf? place with
      | none =>
          have hnot := (indexOf?_eq_none_iff _ place).mp hindex
          rw [propertiesAt_of_not_mem hnot, propertiesAt_of_not_mem]
          rwa [places_declareAt]
      | some index =>
          rw [propertiesAt_declareAt hindex, if_neg]
          rintro rfl
          have hsame := (getElem?_of_indexOf? hindex).symm.trans
            (getElem?_of_indexOf? hdeclaredAt)
          rw [Option.some.injEq] at hsame
          rw [hother, hsame] at htarget
          exact htarget rfl
    next => rfl

end StyleForest

/-! ## The properties of the styles of a theme -/

/-- The layers that a row of stylings puts on a place, first to last. -/
def layersAt (row : List (String × List Property)) (place : Place) :
    List (List Property) :=
  (row.filter (fun styling => target? styling.1 = some place)).map (·.2)

theorem layersAt_append (front back : List (String × List Property)) (place : Place) :
    layersAt (front ++ back) place = layersAt front place ++ layersAt back place := by
  unfold layersAt
  rw [List.filter_append, List.map_append]

theorem layersAt_append_singleton
    (row : List (String × List Property)) (styling : String × List Property)
    (place : Place) :
    layersAt (row ++ [styling]) place =
      layersAt row place ++
        if target? styling.1 = some place then [styling.2] else [] := by
  rw [layersAt_append]
  unfold layersAt
  by_cases htarget : target? styling.1 = some place
  · simp [htarget]
  · simp [htarget]

/-- What a run of stylings leaves at a place is the cascade of their layers. -/
theorem StyleForest.propertiesAt_grown
    (row : List (String × List Property)) (place : Place) :
    (grown row).propertiesAt place = cascade (layersAt row place) := by
  induction row using List.reverseRecOn with
  | nil => rfl
  | append_singleton row styling ih =>
      rw [grown_append_singleton, (records_grown row).propertiesAt_declare, ih,
        layersAt_append_singleton]
      by_cases htarget : target? styling.1 = some place
      · rw [if_pos htarget, if_pos htarget, cascade_append_singleton]
      · rw [if_neg htarget, if_neg htarget, List.append_nil]

theorem StyleForest.properties_of_styleAt? {rules : List Rule} {place : Place}
    {style : Style} (hstyle : (ofRules rules).styleAt? place = some style) :
    style.properties = cascade (layersAt (stylings rules) place) := by
  rw [← propertiesAt_grown, ← ofRules_eq_grown, propertiesAt_of_styleAt? hstyle]

/-- A style has one place, and what it is left with is the cascade of what the
rules declare there. -/
theorem properties_eq_cascade
    {options : LoadOptions} {source : String} {rules : List Rule}
    {theme : Theme} {style : Style}
    (hbuild : (options.build source rules).1 = .ok theme)
    (hstyle : style ∈ theme.styles) :
    ∃ place,
      (∀ other, (StyleForest.ofRules rules).styleAt? other = some style ↔
        other = place) ∧
      style.properties = cascade (layersAt (stylings rules) place) ∧
      ((∀ styling ∈ stylings rules, target? styling.1 ≠ some place) →
        style.properties = []) := by
  rw [styles_of_build hbuild] at hstyle
  obtain ⟨place, hplace⟩ :=
    (StyleForest.records_ofRules rules).exists_place hstyle
  have hproperties := StyleForest.properties_of_styleAt? ((hplace place).mpr rfl)
  refine ⟨place, hplace, hproperties, ?_⟩
  intro hnever
  have hnone : layersAt (stylings rules) place = [] := by
    unfold layersAt
    rw [List.map_eq_nil_iff, List.filter_eq_nil_iff]
    intro styling hstyling
    simpa using hnever styling hstyling
  rw [hproperties, hnone, cascade]

def overridingRules : List Rule :=
  [⟨["Theme"], [⟨"Name", "Plain"⟩]⟩,
    ⟨["A"], [⟨"color", "red"⟩, ⟨"width", "2"⟩]⟩,
    ⟨["A B"], [⟨"color", "green"⟩]⟩,
    ⟨["B", "A"], [⟨"color", "blue"⟩]⟩]

theorem properties_eq_cascade_overridingRules :
    ∃ theme style,
      (({} : LoadOptions).build "plain.css" overridingRules).1 = .ok theme ∧
      style ∈ theme.styles ∧
      style.properties = [⟨"width", "2"⟩, ⟨"color", "blue"⟩] ∧
      ∃ place,
        (∀ other, (StyleForest.ofRules overridingRules).styleAt? other = some style ↔
          other = place) ∧
        style.properties = cascade (layersAt (stylings overridingRules) place) ∧
        ((∀ styling ∈ stylings overridingRules, target? styling.1 ≠ some place) →
          style.properties = []) := by
  obtain ⟨theme, hbuild⟩ : ∃ theme,
      (({} : LoadOptions).build "plain.css" overridingRules).1 = .ok theme :=
    ⟨_, rfl⟩
  have hstyle : Style.mk 0 none ⟨"A", none, none⟩
      [⟨"width", "2"⟩, ⟨"color", "blue"⟩] ∈ theme.styles := by
    rw [styles_of_build hbuild]
    have hfirst : (StyleForest.ofRules overridingRules).styles[0]? =
        some (.mk 0 none ⟨"A", none, none⟩
          [⟨"width", "2"⟩, ⟨"color", "blue"⟩]) := by rfl
    exact List.mem_of_getElem? hfirst
  exact ⟨theme, _, hbuild, hstyle, rfl, properties_eq_cascade hbuild hstyle⟩

end ThemeSheet

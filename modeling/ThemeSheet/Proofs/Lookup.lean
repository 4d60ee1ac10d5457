import ThemeSheet.Proofs.Cascade

/-!
# Looking up a property

A layer takes the place of whatever the layers in front of it say under a
name, but inside of one layer all declarations of a name stay side by side.  A
lookup answers with the first property of a name.  So it finds what the last
layer that has the name says first, which need not be what it says last.
-/

namespace ThemeSheet

/-- The properties of a row under a name, in order. -/
def namedBy (name : String) (row : List Property) : List Property :=
  row.filter (fun property => property.name = name)

/-- What the last of the layers that have a name says under it. -/
def standing (name : String) : List (List Property) → List Property
  | [] => []
  | layer :: later =>
      if standing name later = [] then namedBy name layer else standing name later

/-- Whatever is declared at a place, in the order of the rules, their selectors
and their declarations. -/
def declaredAt (rules : List Rule) (place : Place) : List Property :=
  (layersAt (stylings rules) place).flatten

/-- The last declaration of a name at a place. -/
def lastDeclared? (rules : List Rule) (place : Place) (name : String) :
    Option Property :=
  (namedBy name (declaredAt rules place)).getLast?

section Named

variable {name : String} {row : List Property} {layers : List (List Property)}

theorem namedBy_append (name : String) (front back : List Property) :
    namedBy name (front ++ back) = namedBy name front ++ namedBy name back :=
  List.filter_append front back

theorem namedBy_eq_nil_iff :
    namedBy name row = [] ↔ name ∉ row.map (·.name) := by
  simp [namedBy]

theorem standing_eq_nil_iff :
    standing name layers = [] ↔ namedBy name layers.flatten = [] := by
  induction layers with
  | nil => simp [standing, namedBy]
  | cons layer later ih =>
      rw [standing, List.flatten_cons, namedBy_append, List.append_eq_nil_iff, ← ih]
      by_cases hlater : standing name later = []
      · simp [hlater]
      · simp [hlater]

/-- The part of a layer that survives keeps its declarations of a name exactly
if no later layer has the name. -/
theorem namedBy_filter_not_mem (name : String) (layer later : List Property) :
    namedBy name (layer.filter (fun property => property.name ∉ later.map (·.name))) =
      if namedBy name later = [] then namedBy name layer else [] := by
  have hkept : ∀ property ∈ layer,
      (decide (property.name = name) &&
          decide (property.name ∉ later.map (·.name))) =
        (decide (property.name = name) && decide (name ∉ later.map (·.name))) := by
    intro property _
    by_cases hname : property.name = name
    · rw [hname]
    · simp [hname]
  rw [namedBy, List.filter_filter, List.filter_congr hkept]
  by_cases hlater : namedBy name later = []
  · have hnot := namedBy_eq_nil_iff.mp hlater
    simp only [hlater, hnot, not_false_eq_true, decide_true, Bool.and_true, if_true]
    rfl
  · have hmem : name ∈ later.map (·.name) := by
      by_contra hnot
      exact hlater (namedBy_eq_nil_iff.mpr hnot)
    simp only [hlater, hmem, not_true_eq_false, decide_false, Bool.and_false,
      List.filter_false, if_false]

/-- Under each name, a cascade leaves what the last layer with the name says. -/
theorem namedBy_cascade (name : String) (layers : List (List Property)) :
    namedBy name (cascade layers) = standing name layers := by
  induction layers with
  | nil => rfl
  | cons layer later ih =>
      rw [cascade, namedBy_append, namedBy_filter_not_mem, ih, standing]
      by_cases hlater : standing name later = []
      · rw [if_pos (standing_eq_nil_iff.mp hlater), if_pos hlater, hlater,
          List.append_nil]
      · rw [if_neg (fun hnil => hlater (standing_eq_nil_iff.mpr hnil)),
          if_neg hlater, List.nil_append]

/-- The last layer with a name has the last declaration of it. -/
theorem getLast?_standing (name : String) (layers : List (List Property)) :
    (standing name layers).getLast? = (namedBy name layers.flatten).getLast? := by
  induction layers with
  | nil => rfl
  | cons layer later ih =>
      rw [standing, List.flatten_cons, namedBy_append, List.getLast?_append, ← ih]
      by_cases hlater : standing name later = []
      · rw [if_pos hlater, hlater]
        rfl
      · have hlast := List.getLast?_eq_some_getLast hlater
        rw [if_neg hlater, hlast, Option.some_or]

/-- Where no layer repeats a name, a single declaration stands. -/
theorem length_standing_le (hlayers : ∀ layer ∈ layers, (namedBy name layer).length ≤ 1) :
    (standing name layers).length ≤ 1 := by
  induction layers with
  | nil => exact Nat.zero_le 1
  | cons layer later ih =>
      rw [List.forall_mem_cons] at hlayers
      rw [standing]
      split
      next => exact hlayers.1
      next => exact ih hlayers.2

theorem head?_eq_getLast?_of_length_le {α : Type} {row : List α} (hrow : row.length ≤ 1) :
    row.head? = row.getLast? := by
  match row, hrow with
  | [], _ => rfl
  | [single], _ => rfl

end Named

theorem Style.property?_eq_head? (style : Style) (name : String) :
    style.property? name = (namedBy name style.properties).head? :=
  (List.head?_filter).symm

theorem property?_of_styleAt? {rules : List Rule} {place : Place} {style : Style}
    (hstyle : (StyleForest.ofRules rules).styleAt? place = some style) (name : String) :
    style.property? name = (standing name (layersAt (stylings rules) place)).head? := by
  rw [Style.property?_eq_head?, StyleForest.properties_of_styleAt? hstyle, namedBy_cascade]

/-- A lookup finds nothing exactly if nothing was declared under the name, and
else the first declaration in the last layer that has the name.  That is the
value declared last exactly if this layer begins and ends with one value, and
so in particular where no layer repeats the name. -/
theorem property?_eq_lastDeclared?_iff
    {options : LoadOptions} {source : String} {rules : List Rule}
    {theme : Theme} {style : Style}
    (hbuild : (options.build source rules).1 = .ok theme)
    (hstyle : style ∈ theme.styles) (name : String) :
    ∃ place,
      (∀ other, (StyleForest.ofRules rules).styleAt? other = some style ↔
        other = place) ∧
      (style.property? name = none ↔
        ∀ property ∈ declaredAt rules place, property.name ≠ name) ∧
      style.property? name =
        (standing name (layersAt (stylings rules) place)).head? ∧
      ((style.property? name).map (·.value) =
          (lastDeclared? rules place name).map (·.value) ↔
        (standing name (layersAt (stylings rules) place)).head?.map (·.value) =
          (standing name (layersAt (stylings rules) place)).getLast?.map (·.value)) ∧
      ((∀ layer ∈ layersAt (stylings rules) place, (namedBy name layer).length ≤ 1) →
        style.property? name = lastDeclared? rules place name) := by
  rw [styles_of_build hbuild] at hstyle
  obtain ⟨place, hplace⟩ :=
    (StyleForest.records_ofRules rules).exists_place hstyle
  have hfound := property?_of_styleAt? ((hplace place).mpr rfl) name
  have hlast : lastDeclared? rules place name =
      (standing name (layersAt (stylings rules) place)).getLast? :=
    (getLast?_standing name _).symm
  refine ⟨place, hplace, ?_, hfound, ?_, ?_⟩
  · rw [hfound, List.head?_eq_none_iff, standing_eq_nil_iff, namedBy_eq_nil_iff,
      declaredAt, List.mem_map]
    simp only [not_exists, not_and, ne_eq]
  · rw [hfound, hlast]
  · intro hlayers
    rw [hfound, hlast]
    exact head?_eq_getLast?_of_length_le (length_standing_le hlayers)

/-- One block with two declarations of a name. -/
def doubledRules : List Rule :=
  [⟨["Theme"], [⟨"Name", "Plain"⟩]⟩, ⟨["A"], [⟨"x", "1"⟩, ⟨"x", "2"⟩]⟩]

/-- The style of the one selector of the rules. -/
def doubledStyle : Style :=
  ⟨0, none, ⟨"A", none, none⟩, [⟨"x", "1"⟩, ⟨"x", "2"⟩]⟩

theorem property?_ne_lastDeclared?_of_doubledRules :
    ∃ theme place,
      (({} : LoadOptions).build "plain.css" doubledRules).1 = .ok theme ∧
      doubledStyle ∈ theme.styles ∧
      (StyleForest.ofRules doubledRules).styleAt? place = some doubledStyle ∧
      doubledStyle.property? "x" = some ⟨"x", "1"⟩ ∧
      lastDeclared? doubledRules place "x" = some ⟨"x", "2"⟩ :=
  ⟨_, ⟨[], ['A']⟩, rfl, List.mem_singleton_self _, rfl, rfl, rfl⟩

theorem property?_eq_lastDeclared?_iff_doubledRules :
    ∃ theme place,
      (({} : LoadOptions).build "plain.css" doubledRules).1 = .ok theme ∧
      doubledStyle ∈ theme.styles ∧
      (StyleForest.ofRules doubledRules).styleAt? place = some doubledStyle ∧
      doubledStyle.property? "x" =
        (standing "x" (layersAt (stylings doubledRules) place)).head? := by
  obtain ⟨theme, hbuild⟩ : ∃ theme,
      (({} : LoadOptions).build "plain.css" doubledRules).1 = .ok theme :=
    ⟨_, rfl⟩
  have hstyle : doubledStyle ∈ theme.styles := by
    rw [styles_of_build hbuild]
    exact List.mem_singleton_self doubledStyle
  obtain ⟨place, hplace, -, hfound, -⟩ :=
    property?_eq_lastDeclared?_iff hbuild hstyle "x"
  exact ⟨theme, place, hbuild, hstyle, (hplace place).mpr rfl, hfound⟩

end ThemeSheet

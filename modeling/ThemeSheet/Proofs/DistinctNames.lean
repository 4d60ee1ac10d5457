import ThemeSheet.Proofs.Declarations
import ThemeSheet.Proofs.PropertyNames

/-!
# Names that stay apart

Below one path, a name without points can be told from the name of its property: behind the
last point stands the field, and what the path leaves of the rest is the state.  So one
selector keeps the names of a block apart.  Different selectors may well lead to one name, but
a layer of properties takes the place of all that have its names: where no block repeats a
name, no style does.
-/

namespace ThemeSheet

/-! ## Names below one selector -/

section Selector

variable {name second : List Char}

theorem eq_of_splitState_eq
    (hsplit : Property.splitState name = Property.splitState second) : name = second := by
  rw [← (splitState_forms name).2, hsplit, (splitState_forms second).2]

theorem nameUnder_inj (selector : String) (hname : '.' ∉ name) (hsecond : '.' ∉ second) :
    Property.nameUnder selector.toList name = Property.nameUnder selector.toList second ↔
      name = second := by
  refine ⟨fun heq => ?_, fun heq => by rw [heq]⟩
  cases hpath : (cutPath selector.toList).2 with
  | none => simpa only [Property.nameUnder, hpath] using heq
  | some path =>
      obtain ⟨hfront, hfield⟩ := (nameUnder_eq_iff hpath hpath hname hsecond).mp heq
      have hstate := List.append_cancel_right hfront
      exact eq_of_splitState_eq (Prod.ext hstate hfield)

theorem name_ofDeclaration_inj (selector : String) {first other : Declaration}
    (hfirst : '.' ∉ first.name.toList) (hother : '.' ∉ other.name.toList) :
    (Property.ofDeclaration selector first).name =
        (Property.ofDeclaration selector other).name ↔ first.name = other.name :=
  String.ofList_inj.trans ((nameUnder_inj selector hfirst hother).trans String.toList_inj)

end Selector

/-- Below one selector, whatever its path, two names without points come out the same exactly
if they are the same.  So neither declaration stands in for the other unless it says the name
again, and the values are left as they are. -/
theorem ofDeclaration_keeps_apart (selector : String) (first second : Declaration)
    (hfirst : '.' ∉ first.name.toList) (hsecond : '.' ∉ second.name.toList) :
    ((Property.ofDeclaration selector first).name =
        (Property.ofDeclaration selector second).name ↔ first.name = second.name) ∧
      (Property.ofDeclaration selector first == Property.ofDeclaration selector second) =
        (first.name == second.name) ∧
      (Property.ofDeclaration selector first).value = first.value ∧
      (Property.ofDeclaration selector second).value = second.value := by
  have hnames := name_ofDeclaration_inj selector hfirst hsecond
  refine ⟨hnames, ?_, rfl, rfl⟩
  rw [Bool.eq_iff_iff, Property.beq_iff_name_eq, hnames, beq_iff_eq]

/-- A path with hyphens and a point, and names that differ in a hyphen. -/
theorem ofDeclaration_keeps_apart_statePath :
    '.' ∉ "x-c".toList ∧ '.' ∉ "x--c".toList ∧
      (Property.ofDeclaration "A::-x-b.c" ⟨"x-c", "1"⟩).name = "x--x-b.c.c" ∧
      (Property.ofDeclaration "A::-x-b.c" ⟨"x--c", "2"⟩).name = "x---x-b.c.c" ∧
      (Property.ofDeclaration "A::-x-b.c" ⟨"x-c", "1"⟩).name ≠
        (Property.ofDeclaration "A::-x-b.c" ⟨"x--c", "2"⟩).name := by
  have hfirst : '.' ∉ "x-c".toList := by decide
  have hsecond : '.' ∉ "x--c".toList := by decide
  obtain ⟨hnames, -⟩ := ofDeclaration_keeps_apart "A::-x-b.c"
    ⟨"x-c", "1"⟩ ⟨"x--c", "2"⟩ hfirst hsecond
  exact ⟨hfirst, hsecond, rfl, rfl, fun heq => absurd (hnames.mp heq) (by decide)⟩

/-- With points in them, names need not stay apart. -/
example : (Property.ofDeclaration "A::" ⟨"-.c", "1"⟩).name =
    (Property.ofDeclaration "A::" ⟨".-c", "2"⟩).name :=
  rfl

/-! ## Names of a style -/

section Layers

variable {layers : List (List Property)} {row : List Property}

/-- A layer shares no name with what is left of the layers in front of it. -/
theorem nodup_names_cascade (hlayers : ∀ layer ∈ layers, (layer.map (·.name)).Nodup) :
    ((cascade layers).map (·.name)).Nodup := by
  induction layers with
  | nil => exact List.nodup_nil
  | cons layer later ih =>
      rw [List.forall_mem_cons] at hlayers
      rw [cascade, List.map_append, List.nodup_append']
      refine ⟨hlayers.1.sublist (List.filter_sublist.map _), ih hlayers.2, ?_⟩
      intro name hfirst hlater
      obtain ⟨property, hproperty, rfl⟩ := List.mem_map.mp hfirst
      obtain ⟨other, hother, hname⟩ := List.mem_map.mp hlater
      have hnot : property.name ∉ later.flatten.map (·.name) := by
        simpa using (List.mem_filter.mp hproperty).2
      exact hnot (hname ▸ List.mem_map_of_mem (mem_flatten_of_mem_cascade hother))

theorem find?_of_nodup_names (hnodup : (row.map (·.name)).Nodup) {property : Property}
    (hproperty : property ∈ row) :
    row.find? (fun other => other.name = property.name) = some property := by
  obtain ⟨front, back, rfl⟩ := List.append_of_mem hproperty
  rw [List.map_append, List.map_cons, List.nodup_append'] at hnodup
  rw [List.find?_eq_some_iff_append]
  refine ⟨decide_eq_true rfl, front, back, rfl, fun other hother => ?_⟩
  have hne : other.name ≠ property.name := fun heq =>
    hnodup.2.2 (heq ▸ List.mem_map_of_mem hother) List.mem_cons_self
  simpa using hne

end Layers

/-- Whether no block of a rule for styles says a name twice, and none says one with a
point. -/
def NamesApart (rules : List Rule) : Prop :=
  ∀ rule ∈ rules, rule.isTheme = false →
    (rule.declarations.map (·.name)).Nodup ∧
      ∀ declaration ∈ rule.declarations, '.' ∉ declaration.name.toList
deriving Decidable

section Styles

variable {rules : List Rule}

theorem nodup_names_appliedProperties (hnames : NamesApart rules)
    {application : Rule × String} (happlication : application ∈ applications rules) :
    ((appliedProperties application).map (·.name)).Nodup := by
  rcases application with ⟨rule, selector⟩
  obtain ⟨hrule, hstyles, -⟩ := mem_applications.mp happlication
  obtain ⟨hnodup, hpoints⟩ := hnames rule hrule hstyles
  rw [appliedProperties, List.map_map]
  rw [List.Nodup, List.pairwise_map] at hnodup ⊢
  refine hnodup.imp_of_mem fun {first second} hfirst hsecond hne heq => hne ?_
  exact (name_ofDeclaration_inj selector (hpoints first hfirst) (hpoints second hsecond)).mp heq

theorem nodup_names_layersAt (hnames : NamesApart rules) (place : Place) :
    ∀ layer ∈ layersAt (stylings rules) place, (layer.map (·.name)).Nodup := by
  intro layer hlayer
  rw [layersAt_stylings] at hlayer
  obtain ⟨application, hkept, rfl⟩ := List.mem_map.mp hlayer
  exact nodup_names_appliedProperties hnames (List.mem_filter.mp hkept).1

end Styles

/-- Where no block repeats a name, no style has two properties of one name, whatever rules
and selectors lead to it.  So each of its properties is found under its name. -/
theorem nodup_names_of_build
    {options : LoadOptions} {source : String} {rules : List Rule}
    {theme : Theme} {style : Style}
    (hbuild : (options.build source rules).1 = .ok theme)
    (hnames : NamesApart rules) (hstyle : style ∈ theme.styles) :
    (style.properties.map (·.name)).Nodup ∧
      ∀ property ∈ style.properties, style.property? property.name = some property := by
  rw [styles_of_build hbuild] at hstyle
  obtain ⟨place, hplace⟩ := (StyleForest.records_ofRules rules).exists_place hstyle
  have hproperties := StyleForest.properties_of_styleAt? ((hplace place).mpr rfl)
  have hnodup : (style.properties.map (·.name)).Nodup := by
    rw [hproperties]
    exact nodup_names_cascade (nodup_names_layersAt hnames place)
  exact ⟨hnodup, fun property hproperty => find?_of_nodup_names hnodup hproperty⟩

/-- Three selectors of one style, two of which lead to the name `x-b.c`. -/
def meetingRules : List Rule :=
  [⟨["Theme"], [⟨"Name", "Plain"⟩]⟩,
    ⟨["A::b"], [⟨"x-c", "1"⟩, ⟨"x--c", "2"⟩]⟩,
    ⟨["A", "A::x-b"], [⟨"c", "3"⟩, ⟨"x-c", "4"⟩]⟩]

def meetingStyle : Style :=
  ⟨0, none, ⟨"A", none, none⟩,
    [⟨"x--b.c", "2"⟩, ⟨"c", "3"⟩, ⟨"x-c", "4"⟩, ⟨"x-b.c", "3"⟩, ⟨"x-x-b.c", "4"⟩]⟩

theorem nodup_names_of_build_meetingRules :
    NamesApart meetingRules ∧
      ∃ theme, (({} : LoadOptions).build "plain.css" meetingRules).1 = .ok theme ∧
        meetingStyle ∈ theme.styles ∧
        (meetingStyle.properties.map (·.name)).Nodup ∧
        meetingStyle.property? "x-b.c" = some ⟨"x-b.c", "3"⟩ := by
  have hnames : NamesApart meetingRules := by decide
  obtain ⟨theme, hbuild⟩ : ∃ theme,
      (({} : LoadOptions).build "plain.css" meetingRules).1 = .ok theme :=
    ⟨_, rfl⟩
  have hstyle : meetingStyle ∈ theme.styles := by
    rw [styles_of_build hbuild]
    exact List.mem_singleton_self meetingStyle
  obtain ⟨hnodup, hfound⟩ := nodup_names_of_build hbuild hnames hstyle
  exact ⟨hnames, theme, hbuild, hstyle, hnodup,
    hfound ⟨"x-b.c", "3"⟩ (List.mem_of_getElem? (i := 3) rfl)⟩

end ThemeSheet

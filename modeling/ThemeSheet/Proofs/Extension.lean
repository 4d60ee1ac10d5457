import ThemeSheet.Proofs.Repetition

/-!
# Styles that stay

A forest grows at its end.  A style keeps its place, its number, its parent and
its selector, whatever is declared later.  Its properties change only when a
selector leads to its very place: the styles on the way there stay as they are.
-/

namespace ThemeSheet

/-- What a style is from the start: all but its properties. -/
def Style.outline (style : Style) : Style :=
  Style.bare style.index style.parent style.selector

@[simp] theorem Style.outline_declare (style : Style) (properties : List Property) :
    (style.declare properties).outline = style.outline :=
  rfl

namespace StyleForest

/-- Whether a forest has grown out of another by declarations for the given
selectors. -/
def Extends (next forest : StyleForest) (selectors : List String) : Prop :=
  ∀ (index : Nat) (place : Place) (style : Style),
    forest.entries[index]? = some (place, style) →
      ∃ later, next.entries[index]? = some (place, later) ∧
        later.outline = style.outline ∧
        ((∀ selector ∈ selectors, target? selector ≠ some place) → later = style)

variable {forest next last : StyleForest} {visits : List (List Selector)}
variable {selectors others : List String}

theorem Extends.refl (forest : StyleForest) : forest.Extends forest [] :=
  fun _ _ style hentry => ⟨style, hentry, rfl, fun _ => rfl⟩

theorem Extends.trans (hlast : last.Extends next others)
    (hnext : next.Extends forest selectors) :
    last.Extends forest (selectors ++ others) := by
  intro index place style hentry
  obtain ⟨later, hlater, houtline, hkept⟩ := hnext index place style hentry
  obtain ⟨latest, hlatest, hlatestOutline, hlatestKept⟩ := hlast index place later hlater
  refine ⟨latest, hlatest, hlatestOutline.trans houtline, fun hnever => ?_⟩
  rw [List.forall_mem_append] at hnever
  rw [hlatestKept hnever.2, hkept hnever.1]

theorem Extends.mono (hnext : next.Extends forest selectors)
    (hmore : selectors ⊆ others) : next.Extends forest others := by
  intro index place style hentry
  obtain ⟨later, hlater, houtline, hkept⟩ := hnext index place style hentry
  exact ⟨later, hlater, houtline,
    fun hnever => hkept (fun selector hselector => hnever selector (hmore hselector))⟩

theorem extends_of_isPrefix (hinitial : forest.entries <+: next.entries) :
    next.Extends forest [] := by
  intro index place style hentry
  obtain ⟨more, hmore⟩ := hinitial
  have hlt := (List.getElem?_eq_some_iff.mp hentry).1
  refine ⟨style, ?_, rfl, fun _ => rfl⟩
  rw [← hmore, List.getElem?_append_left hlt, hentry]

theorem Extends.map_outline_isPrefix (hnext : next.Extends forest selectors) :
    forest.styles.map Style.outline <+: next.styles.map Style.outline := by
  rw [List.prefix_iff_getElem?]
  intro index hlt
  rw [List.length_map] at hlt
  obtain ⟨place, hentry⟩ := getElem?_styles (List.getElem?_eq_getElem hlt)
  obtain ⟨later, hlater, houtline, -⟩ := hnext index place _ hentry
  rw [List.getElem_map, ← houtline, styles, List.map_map, List.getElem?_map, hlater]
  rfl

/-! ## One step -/

theorem entries_isPrefix_enter (forest : StyleForest) (place : Place)
    (parent : Option Nat) (selector : Selector) :
    forest.entries <+: (forest.enter place parent selector).1.entries := by
  cases hindex : forest.indexOf? place with
  | some index =>
      rw [enter_of_mem hindex]
  | none =>
      rw [enter_of_not_mem hindex]
      exact List.prefix_append _ _

theorem entries_isPrefix_descend (forest : StyleForest) (path : List Char)
    (parent : Option Nat) (line : List Selector) :
    forest.entries <+: (forest.descend path parent line).1.entries := by
  induction line generalizing forest path parent with
  | nil => exact List.prefix_refl _
  | cons selector rest ih =>
      exact (entries_isPrefix_enter forest _ parent selector).trans (ih _ _ _)

/-- Declaring at the number of a place leaves the styles of all other places
alone. -/
theorem extends_declareAt {selector : String} {target : Place} {number : Nat}
    (htarget : target? selector = some target)
    (hnumber : forest.indexOf? target = some number) (properties : List Property) :
    (forest.declareAt number properties).Extends forest [selector] := by
  intro index place style hentry
  refine ⟨if index = number then style.declare properties else style, ?_, ?_, ?_⟩
  · rw [getElem?_declareAt, hentry]
    rfl
  · split
    next => rw [Style.outline_declare]
    next => rfl
  · intro hnever
    rw [if_neg]
    rintro rfl
    have hplace := (getElem?_places hentry).symm.trans (getElem?_of_indexOf? hnumber)
    rw [← hplace] at htarget
    exact hnever selector (List.mem_singleton_self selector) htarget

/-- A declaration extends the forest, and changes what its selector leads to at
most. -/
theorem Records.extends_declare (hrecords : forest.Records visits)
    (selector : String) (properties : List Property) :
    (forest.declare selector properties).Extends forest [selector] := by
  have hgrown : (forest.growTo selector).Extends forest [] :=
    extends_of_isPrefix (entries_isPrefix_descend forest [] none (chain selector))
  rw [declare_eq hrecords]
  split
  next number hnumber =>
    obtain ⟨target, htarget, hindex⟩ := Option.bind_eq_some_iff.mp hnumber
    exact (extends_declareAt htarget hindex properties).trans hgrown
  next => exact hgrown.mono (List.nil_subset _)

/-! ## A run -/

theorem extends_grown_append (row more : List (String × List Property)) :
    (grown (row ++ more)).Extends (grown row) (more.map (·.1)) := by
  induction more using List.reverseRecOn with
  | nil =>
      rw [List.append_nil]
      exact Extends.refl _
  | append_singleton more styling ih =>
      rw [← List.append_assoc, grown_append_singleton, List.map_append]
      exact ((records_grown (row ++ more)).extends_declare styling.1 styling.2).trans ih

theorem extends_ofRules_append (rules more : List Rule) :
    (ofRules (rules ++ more)).Extends (ofRules rules) (styledSelectors more) := by
  rw [ofRules_eq_grown, ofRules_eq_grown, stylings_append, ← map_fst_stylings]
  exact extends_grown_append (stylings rules) (stylings more)

end StyleForest

/-- Rules behind others leave the outlines of the styles as they are, and what is
more, each style that none of their selectors leads to. -/
theorem styles_of_build_append
    {options : LoadOptions} {source : String} {rules more : List Rule}
    {theme longer : Theme}
    (hbuild : (options.build source rules).1 = .ok theme)
    (hlonger : (options.build source (rules ++ more)).1 = .ok longer) :
    theme.styles.map Style.outline <+: longer.styles.map Style.outline ∧
      ∀ (index : Nat) (style : Style), theme.styles[index]? = some style →
        ∃ place,
          (∀ other, (StyleForest.ofRules rules).styleAt? other = some style ↔
            other = place) ∧
          (StyleForest.ofRules (rules ++ more)).styleAt? place = longer.styles[index]? ∧
          ((∀ selector ∈ styledSelectors more, target? selector ≠ some place) →
            longer.styles[index]? = some style) := by
  have hextends := StyleForest.extends_ofRules_append rules more
  rw [styles_of_build hbuild, styles_of_build hlonger]
  refine ⟨hextends.map_outline_isPrefix, ?_⟩
  intro index style hstyle
  obtain ⟨place, hentry⟩ := StyleForest.getElem?_styles hstyle
  obtain ⟨later, hlater, -, hkept⟩ := hextends index place style hentry
  have hplace := (StyleForest.records_ofRules rules).styleAt?_of_mem
    (List.mem_of_getElem? hentry)
  have hlaterPlace := (StyleForest.records_ofRules (rules ++ more)).styleAt?_of_mem
    (List.mem_of_getElem? hlater)
  have hlaterStyle : (StyleForest.ofRules (rules ++ more)).styles[index]? = some later := by
    rw [StyleForest.styles, List.getElem?_map, hlater]
    rfl
  obtain ⟨only, honly⟩ := (StyleForest.records_ofRules rules).exists_place
    (List.mem_of_getElem? hstyle)
  obtain rfl : place = only := (honly place).mp hplace
  refine ⟨place, honly, by rw [hlaterPlace, hlaterStyle], fun hnever => ?_⟩
  rw [hlaterStyle, hkept hnever]

def firstRules : List Rule :=
  [⟨["Theme"], [⟨"Name", "Plain"⟩]⟩, ⟨["A B"], [⟨"color", "red"⟩]⟩]

/-- Leads through the styles of `firstRules`, but to another. -/
def deeperRules : List Rule := [⟨["A B C", "A"], [⟨"color", "blue"⟩]⟩]

theorem styles_of_build_append_deeperRules :
    ∃ theme longer,
      (({} : LoadOptions).build "plain.css" firstRules).1 = .ok theme ∧
      (({} : LoadOptions).build "plain.css" (firstRules ++ deeperRules)).1 = .ok longer ∧
      theme.styles.map Style.outline <+: longer.styles.map Style.outline ∧
      longer.styles[1]? = some ⟨1, some 0, ⟨"B", none, none⟩, [⟨"color", "red"⟩]⟩ := by
  obtain ⟨theme, hbuild⟩ : ∃ theme,
      (({} : LoadOptions).build "plain.css" firstRules).1 = .ok theme :=
    ⟨_, rfl⟩
  obtain ⟨longer, hlonger⟩ : ∃ longer,
      (({} : LoadOptions).build "plain.css" (firstRules ++ deeperRules)).1 = .ok longer :=
    ⟨_, rfl⟩
  obtain ⟨houtlines, hstyles⟩ := styles_of_build_append hbuild hlonger
  have hstyle : theme.styles[1]? =
      some ⟨1, some 0, ⟨"B", none, none⟩, [⟨"color", "red"⟩]⟩ := by
    rw [styles_of_build hbuild]
    rfl
  obtain ⟨place, hplace, -, hkept⟩ := hstyles 1 _ hstyle
  obtain rfl : (⟨['A'], ['B']⟩ : Place) = place := (hplace _).mp rfl
  exact ⟨theme, longer, hbuild, hlonger, houtlines, hkept (by decide)⟩

end ThemeSheet

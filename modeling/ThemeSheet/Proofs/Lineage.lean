import ThemeSheet.Load.Build
import ThemeSheet.Proofs.ForestGrowth

/-!
# The line from a root to a style

Where parents stand in front of their children, a climb ends by itself: it
takes fewer steps than there are styles.  So the ancestors of a style are its
parent and the ancestors of that.  Every theme that is built has its styles in
such an order.
-/

namespace ThemeSheet

namespace Theme

/-- Styles stand at their numbers, and parents in front of their children. -/
def Ordered (theme : Theme) : Prop :=
  ∀ (index : Nat) (style : Style), theme.styles[index]? = some style →
    style.index = index ∧ ∀ parent ∈ style.parent, parent < index

variable {theme : Theme} {style parent : Style}

theorem Ordered.parent_mem (hordered : theme.Ordered) (hstyle : style ∈ theme.styles)
    {number : Nat} (hnumber : style.parent = some number) :
    ∃ parent, theme.parent? style = some parent ∧ parent ∈ theme.styles ∧
      parent.index < style.index := by
  obtain ⟨index, hindex⟩ := List.getElem?_of_mem hstyle
  obtain ⟨hself, hparents⟩ := hordered index style hindex
  have hlt := hparents number hnumber
  have hlength := (List.getElem?_eq_some_iff.mp hindex).1
  have hget : theme.styles[number]? = some theme.styles[number] :=
    List.getElem?_eq_getElem (by omega)
  refine ⟨theme.styles[number], ?_, List.getElem_mem _, ?_⟩
  · simp only [parent?, style?, hnumber, Option.bind_some, hget]
  · rw [(hordered number _ hget).1, hself]
    exact hlt

theorem Ordered.index_lt (hordered : theme.Ordered)
    (hparent : theme.parent? style = some parent) (hstyle : style ∈ theme.styles) :
    parent ∈ theme.styles ∧ parent.index < style.index := by
  rcases Option.bind_eq_some_iff.mp hparent with ⟨number, hnumber, -⟩
  obtain ⟨found, hfound, hmem, hlt⟩ := hordered.parent_mem hstyle hnumber
  rw [hparent, Option.some.injEq] at hfound
  subst found
  exact ⟨hmem, hlt⟩

theorem Ordered.climb_eq (hordered : theme.Ordered)
    (hstyle : style ∈ theme.styles) {steps more : Nat}
    (hsteps : style.index ≤ steps) (hmore : style.index ≤ more) :
    theme.climb steps style = theme.climb more style := by
  induction steps generalizing style more with
  | zero =>
      cases hparent : theme.parent? style with
      | none => cases more <;> simp [climb, hparent]
      | some parent =>
          have hlt := (hordered.index_lt hparent hstyle).2
          omega
  | succ steps ih =>
      cases hparent : theme.parent? style with
      | none => cases more <;> simp [climb, hparent]
      | some parent =>
          obtain ⟨hmem, hlt⟩ := hordered.index_lt hparent hstyle
          cases more with
          | zero => omega
          | succ more =>
              have hrest := ih hmem (show parent.index ≤ steps by omega)
                (show parent.index ≤ more by omega)
              simp only [climb, hparent, hrest]

theorem ancestors_of_parent?_eq_none (hparent : theme.parent? style = none) :
    theme.ancestors style = [] := by
  unfold ancestors
  cases theme.styles.length <;> simp [climb, hparent]

theorem Ordered.ancestors_eq_cons (hordered : theme.Ordered)
    (hstyle : style ∈ theme.styles) (hparent : theme.parent? style = some parent) :
    theme.ancestors style = parent :: theme.ancestors parent := by
  obtain ⟨hmem, hlt⟩ := hordered.index_lt hparent hstyle
  obtain ⟨index, hindex⟩ := List.getElem?_of_mem hstyle
  have hself := (hordered index style hindex).1
  have hlength := (List.getElem?_eq_some_iff.mp hindex).1
  unfold ancestors
  obtain ⟨count, hcount⟩ : ∃ count, theme.styles.length = count + 1 :=
    ⟨theme.styles.length - 1, by omega⟩
  have hrest := hordered.climb_eq hmem (show parent.index ≤ count by omega)
    (show parent.index ≤ count + 1 by omega)
  rw [hcount, ← hrest]
  simp only [climb, hparent]

/-- The selectors from the root down to a style. -/
def lineage (theme : Theme) (style : Style) : List Selector :=
  ((style :: theme.ancestors style).map (·.selector)).reverse

theorem lineage_of_parent?_eq_none (hparent : theme.parent? style = none) :
    theme.lineage style = [style.selector] := by
  unfold lineage
  rw [ancestors_of_parent?_eq_none hparent]
  rfl

theorem Ordered.lineage_eq_append (hordered : theme.Ordered)
    (hstyle : style ∈ theme.styles) (hparent : theme.parent? style = some parent) :
    theme.lineage style = theme.lineage parent ++ [style.selector] := by
  rw [lineage, hordered.ancestors_eq_cons hstyle hparent]
  simp [lineage]

end Theme

/-! ## The style at a place -/

namespace StyleForest

variable {forest : StyleForest} {visits : List (List Selector)}
variable {index : Nat} {place : Place} {style : Style}

theorem getElem?_styles (hstyle : forest.styles[index]? = some style) :
    ∃ place, forest.entries[index]? = some (place, style) := by
  unfold styles at hstyle
  rw [List.getElem?_map] at hstyle
  rcases Option.map_eq_some_iff.mp hstyle with ⟨⟨place, found⟩, hentry, rfl⟩
  exact ⟨place, hentry⟩

theorem getElem?_places (hentry : forest.entries[index]? = some (place, style)) :
    forest.places[index]? = some place := by
  unfold places
  rw [List.getElem?_map, hentry]
  rfl

def styleAt? (forest : StyleForest) (place : Place) : Option Style :=
  (forest.indexOf? place).bind (forest.styles[·]?)

theorem styleAt?_of_indexOf? (hindex : forest.indexOf? place = some index) :
    forest.styleAt? place = forest.styles[index]? := by
  rw [styleAt?, hindex, Option.bind_some]

theorem exists_styleAt? (hplace : place ∈ forest.places) :
    ∃ style, forest.styleAt? place = some style := by
  cases hindex : forest.indexOf? place with
  | none => exact absurd hplace ((indexOf?_eq_none_iff forest place).mp hindex)
  | some index =>
      have hlt : index < forest.styles.length := by
        simpa [styles] using indexOf?_lt hindex
      rw [styleAt?_of_indexOf? hindex]
      exact ⟨_, List.getElem?_eq_getElem hlt⟩

theorem mem_styles_of_styleAt?
    (hstyle : forest.styleAt? place = some style) : style ∈ forest.styles := by
  rcases Option.bind_eq_some_iff.mp hstyle with ⟨index, -, hget⟩
  exact List.mem_of_getElem? hget

theorem Records.indexOf?_of_styleAt? (hrecords : forest.Records visits)
    (hstyle : forest.styleAt? place = some style) :
    forest.indexOf? place = some style.index := by
  rcases Option.bind_eq_some_iff.mp hstyle with ⟨index, hindex, hget⟩
  obtain ⟨found, hentry⟩ := getElem?_styles hget
  rw [hindex, (hrecords.settled index found style hentry).index_eq]

theorem Records.settled_of_styleAt? (hrecords : forest.Records visits)
    (hstyle : forest.styleAt? place = some style) :
    forest.Settled visits style.index place style := by
  have hindex := hrecords.indexOf?_of_styleAt? hstyle
  rw [styleAt?_of_indexOf? hindex] at hstyle
  obtain ⟨found, hentry⟩ := getElem?_styles hstyle
  have hplace := getElem?_of_indexOf? hindex
  rw [getElem?_places hentry, Option.some.injEq] at hplace
  subst hplace
  exact hrecords.settled style.index found style hentry

theorem Records.styleAt?_of_mem (hrecords : forest.Records visits)
    (hentry : (place, style) ∈ forest.entries) :
    forest.styleAt? place = some style := by
  obtain ⟨index, hindex⟩ := List.getElem?_of_mem hentry
  have hplace := indexOf?_of_getElem? hrecords.nodup (getElem?_places hindex)
  rw [styleAt?_of_indexOf? hplace, styles, List.getElem?_map, hindex]
  rfl

theorem Records.exists_place (hrecords : forest.Records visits)
    (hstyle : style ∈ forest.styles) :
    ∃ place, ∀ other, forest.styleAt? other = some style ↔ other = place := by
  rcases List.mem_map.mp hstyle with ⟨⟨place, found⟩, hentry, rfl⟩
  have hplace := hrecords.styleAt?_of_mem hentry
  refine ⟨place, fun other => ⟨?_, ?_⟩⟩
  · intro hother
    have hotherPlace := getElem?_of_indexOf? (hrecords.indexOf?_of_styleAt? hother)
    rw [getElem?_of_indexOf? (hrecords.indexOf?_of_styleAt? hplace),
      Option.some.injEq] at hotherPlace
    exact hotherPlace.symm
  · intro heq
    rw [heq]
    exact hplace

end StyleForest

/-! ## Themes that are built -/

section Built

variable {options : LoadOptions} {source : String} {rules : List Rule}
variable {theme : Theme} {style : Style}

theorem styles_of_build (hbuild : (options.build source rules).1 = .ok theme) :
    theme.styles = (StyleForest.ofRules rules).styles := by
  unfold LoadOptions.build at hbuild
  simp only at hbuild
  split at hbuild
  next => cases hbuild
  next =>
    split at hbuild
    next => cases hbuild
    next =>
      simp only [Except.ok.injEq] at hbuild
      rw [← hbuild]
      rfl

theorem ordered_of_build
    (hbuild : (options.build source rules).1 = .ok theme) : theme.Ordered := by
  intro index style hstyle
  rw [styles_of_build hbuild] at hstyle
  obtain ⟨place, hentry⟩ := StyleForest.getElem?_styles hstyle
  have hsettled :=
    (StyleForest.records_ofRules rules).settled index place style hentry
  exact ⟨hsettled.index_eq, hsettled.parent_lt⟩

theorem exists_styleAt?_of_mem_styledLines
    (hbuild : (options.build source rules).1 = .ok theme)
    {line : List Selector} (hline : line ∈ styledLines rules) :
    ∃ place style, placeOf? line = some place ∧
      (StyleForest.ofRules rules).styleAt? place = some style ∧
      style ∈ theme.styles := by
  obtain ⟨place, hplace⟩ := Option.ne_none_iff_exists'.mp
    (fun hnone => (mem_styledLines.mp hline).1 ((placeOf?_eq_none_iff line).mp hnone))
  have hmem := ((StyleForest.records_ofRules rules).mem_places_iff place).mpr
    ⟨line, hline, hplace⟩
  obtain ⟨style, hstyle⟩ := StyleForest.exists_styleAt? hmem
  rw [styles_of_build hbuild]
  exact ⟨place, style, hplace, hstyle, StyleForest.mem_styles_of_styleAt? hstyle⟩

/-- A style comes from the first line to its place.  Another line there differs
only in the bare segments at its front. -/
theorem origin_of_styleAt? {line : List Selector} {last : Selector}
    (hline : line ++ [last] ∈ styledLines rules) {place : Place}
    (hplace : placeOf? (line ++ [last]) = some place)
    (hstyle : (StyleForest.ofRules rules).styleAt? place = some style) :
    ∃ above, named above = named line ∧
      (styledLines rules).find? (fun visit => placeOf? visit = some place) =
        some (above ++ [last]) ∧
      style.selector = last ∧
      style.parent = (placeOf? above).bind (StyleForest.ofRules rules).indexOf? := by
  obtain ⟨above, selector, hfind, hselector, hparent⟩ :=
    ((StyleForest.records_ofRules rules).settled_of_styleAt? hstyle).origin
  have hsame : placeOf? (above ++ [selector]) = some place := by
    simpa using List.find?_some hfind
  have habove := List.mem_of_find?_eq_some hfind
  obtain ⟨hnamed, rfl⟩ :=
    (placeOf?_eq_iff (isSegment_of_mem_styledLines habove)
      (isSegment_of_mem_styledLines hline)).mp (hsame.trans hplace.symm)
  exact ⟨above, hnamed, hfind, hselector, hparent⟩

theorem parent?_of_parent_eq (hbuild : (options.build source rules).1 = .ok theme)
    {above : List Selector}
    (hparent : style.parent =
      (placeOf? above).bind (StyleForest.ofRules rules).indexOf?) :
    theme.parent? style =
      (placeOf? above).bind (StyleForest.ofRules rules).styleAt? := by
  rw [Theme.parent?, hparent, Option.bind_assoc]
  unfold Theme.style? StyleForest.styleAt?
  rw [styles_of_build hbuild]

end Built

end ThemeSheet

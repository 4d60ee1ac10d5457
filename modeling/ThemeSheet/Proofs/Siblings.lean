import ThemeSheet.Proofs.Lineage

/-!
# Siblings differ

Styles are found again by their places, and nothing looks at the parents that
they have by then.  But the parent of a style decides the path of its place,
also where several lines lead to it.  So styles with one parent and one
selector have one place, and a place has one style.
-/

namespace ThemeSheet

/-- Styles at their numbers, behind their parents and unlike their siblings. -/
structure Arranged (styles : List Style) : Prop where
  index_eq : ∀ (index : Nat) (style : Style),
    styles[index]? = some style → style.index = index
  parent_lt : ∀ style ∈ styles, ∀ parent ∈ style.parent, parent < style.index
  siblings : ∀ (index other : Nat) (style sibling : Style),
    styles[index]? = some style → styles[other]? = some sibling →
      style.parent = sibling.parent → style.selector = sibling.selector →
        index = other

namespace StyleForest

variable {forest : StyleForest} {visits : List (List Selector)}
variable {index : Nat} {place : Place} {style : Style}

/-- The path below a style, and that of the roots. -/
def pathUnder (forest : StyleForest) (parent : Option Nat) : List Char :=
  match parent.bind (forest.places[·]?) with
  | none => []
  | some place => place.below

theorem Settled.segment_eq (hsettled : forest.Settled visits index place style) :
    place.segment = style.selector.text.toList := by
  obtain ⟨line, selector, hfind, rfl, -⟩ := hsettled.origin
  have hplace := List.find?_some hfind
  rw [placeOf?_append_singleton, decide_eq_true_eq, Option.some.injEq] at hplace
  rw [← hplace]

theorem Settled.path_eq (hsettled : forest.Settled visits index place style)
    (hrecords : forest.Records visits) :
    place.path = forest.pathUnder style.parent := by
  obtain ⟨line, selector, hfind, -, hparent⟩ := hsettled.origin
  have hplace := List.find?_some hfind
  rw [placeOf?_append_singleton, decide_eq_true_eq, Option.some.injEq] at hplace
  rw [hparent, ← hplace, pathUnder]
  cases line using List.reverseRecOn with
  | nil => rfl
  | append_singleton above last =>
      have hmem := hrecords.above_mem _ selector (List.mem_of_find?_eq_some hfind)
        ⟨pathOf above, last.text.toList⟩ (placeOf?_append_singleton above last)
      obtain ⟨number, hnumber⟩ := Option.ne_none_iff_exists'.mp
        (fun hnone => (indexOf?_eq_none_iff _ _).mp hnone hmem)
      rw [placeOf?_append_singleton, Option.bind_some, hnumber, Option.bind_some,
        getElem?_of_indexOf? hnumber, pathOf_append_singleton]

theorem Records.index_eq_of_sibling (hrecords : forest.Records visits)
    {other : Nat} {sibling : Style}
    (hstyle : forest.styles[index]? = some style)
    (hsibling : forest.styles[other]? = some sibling)
    (hparent : style.parent = sibling.parent)
    (hselector : style.selector = sibling.selector) : index = other := by
  obtain ⟨place, hentry⟩ := getElem?_styles hstyle
  obtain ⟨otherPlace, hother⟩ := getElem?_styles hsibling
  have hsettled := hrecords.settled index place style hentry
  have hotherSettled := hrecords.settled other otherPlace sibling hother
  have hpath : place.path = otherPlace.path := by
    rw [hsettled.path_eq hrecords, hparent, hotherSettled.path_eq hrecords]
  have hsegment : place.segment = otherPlace.segment := by
    rw [hsettled.segment_eq, hselector, hotherSettled.segment_eq]
  have hplace : place = otherPlace := by
    cases place
    cases otherPlace
    simp_all
  have hindex := indexOf?_of_getElem? hrecords.nodup (getElem?_places hentry)
  rw [hplace, indexOf?_of_getElem? hrecords.nodup (getElem?_places hother),
    Option.some.injEq] at hindex
  exact hindex.symm

theorem Records.arranged (hrecords : forest.Records visits) :
    Arranged forest.styles where
  index_eq := by
    intro index style hstyle
    obtain ⟨place, hentry⟩ := getElem?_styles hstyle
    exact (hrecords.settled index place style hentry).index_eq
  parent_lt := by
    intro style hstyle
    obtain ⟨index, hindex⟩ := List.getElem?_of_mem hstyle
    obtain ⟨place, hentry⟩ := getElem?_styles hindex
    have hsettled := hrecords.settled index place style hentry
    rw [hsettled.index_eq]
    exact hsettled.parent_lt
  siblings := fun _ _ _ _ => hrecords.index_eq_of_sibling

end StyleForest

/-- The styles are arranged after each declaration, and in each theme. -/
theorem arranged_of_declarations :
    (∀ row : List (String × List Property), Arranged (StyleForest.grown row).styles) ∧
    ∀ (options : LoadOptions) (source : String) (rules : List Rule) (theme : Theme),
      (options.build source rules).1 = .ok theme → Arranged theme.styles := by
  constructor
  · intro row
    exact (StyleForest.records_grown row).arranged
  · intro options source rules theme hbuild
    rw [styles_of_build hbuild]
    exact (StyleForest.records_ofRules rules).arranged

/-- Two spellings of one segment, and a path that leaves no trace. -/
def respelledRules : List Rule :=
  [⟨["Theme"], [⟨"Name", "Plain"⟩]⟩,
    ⟨["A::Part B#b.c", "A B.c#b"], [⟨"color", "red"⟩]⟩,
    ⟨["::Part A", "A"], [⟨"color", "green"⟩]⟩]

theorem arranged_of_declarations_respelledRules :
    ∃ theme, (({} : LoadOptions).build "plain.css" respelledRules).1 = .ok theme ∧
      Arranged theme.styles := by
  obtain ⟨theme, hbuild⟩ : ∃ theme,
      (({} : LoadOptions).build "plain.css" respelledRules).1 = .ok theme :=
    ⟨_, rfl⟩
  exact ⟨theme, hbuild, arranged_of_declarations.2 _ _ _ _ hbuild⟩

end ThemeSheet

import ThemeSheet.Proofs.SelectorText
import ThemeSheet.Proofs.Words
import ThemeSheet.Style.Forest
import Mathlib.Data.List.Infix
import Mathlib.Data.List.Induction

/-!
# Lines of selectors

A line leads from a root down to a style.  The selectors of rules lead through
lines, and each line has a place.  A place keeps the line it belongs to, up to
the segments at the front that have no text: the path of a place is the row of
texts behind these, with spaces in between.
-/

namespace ThemeSheet

namespace Selector

/-- Whether a segment is a path and nothing else. -/
def isBare (selector : Selector) : Bool := selector.text.toList.isEmpty

/-- Whether a segment can read as the selector. -/
def IsSegment (selector : Selector) : Prop :=
  ∃ segment : String,
    (∀ c ∈ segment.toList, isBlank c = false) ∧ selector = ofSegment segment

theorem IsSegment.wellFormed {selector : Selector}
    (hsegment : selector.IsSegment) : selector.WellFormed := by
  obtain ⟨segment, -, rfl⟩ := hsegment
  exact wellFormed_ofSegment segment

theorem IsSegment.space_not_mem {selector : Selector}
    (hsegment : selector.IsSegment) : ' ' ∉ selector.text.toList := by
  obtain ⟨segment, hblank, rfl⟩ := hsegment
  intro hspace
  have hnot := not_isBlank_of_mem_text hblank ' ' hspace
  exact absurd hnot (by decide)

end Selector

/-- The line from the outermost ancestor to what a selector ends in. -/
def chain (selector : String) : List Selector :=
  (segments selector).map Selector.ofSegment

theorem isSegment_of_mem_chain {text : String} {selector : Selector}
    (hselector : selector ∈ chain text) : selector.IsSegment := by
  rcases List.mem_map.mp hselector with ⟨segment, hsegment, rfl⟩
  exact ⟨segment, not_isBlank_of_mem_segments hsegment, rfl⟩

/-! ## The place of a line -/

def pathOf (line : List Selector) : List Char :=
  line.foldl (fun path selector => Place.below ⟨path, selector.text.toList⟩) []

/-- The place that a line ends in: the path of the line above it and the text
of its last segment. -/
def placeOf? (line : List Selector) : Option Place :=
  line.getLast?.map (fun last => ⟨pathOf line.dropLast, last.text.toList⟩)

@[simp] theorem pathOf_append_singleton
    (line : List Selector) (selector : Selector) :
    pathOf (line ++ [selector]) =
      Place.below ⟨pathOf line, selector.text.toList⟩ := by
  simp [pathOf]

@[simp] theorem placeOf?_nil : placeOf? [] = none := rfl

@[simp] theorem placeOf?_append_singleton
    (line : List Selector) (selector : Selector) :
    placeOf? (line ++ [selector]) =
      some ⟨pathOf line, selector.text.toList⟩ := by
  simp [placeOf?]

theorem placeOf?_eq_none_iff (line : List Selector) :
    placeOf? line = none ↔ line = [] := by
  simp [placeOf?]

def target? (selector : String) : Option Place := placeOf? (chain selector)

/-- The line from its first segment that has a text. -/
def named (line : List Selector) : List Selector :=
  line.dropWhile Selector.isBare

theorem named_append (first second : List Selector) :
    named (first ++ second) =
      if named first = [] then named second else named first ++ second := by
  simp [named, List.dropWhile_append]

theorem isBare_of_named_eq_cons
    {line rest : List Selector} {first : Selector}
    (hnamed : named line = first :: rest) : first.isBare = false := by
  have hnot := List.head?_dropWhile_not Selector.isBare line
  unfold named at hnamed
  simpa [hnamed] using hnot

theorem text_ne_nil_of_named_eq_cons
    {line rest : List Selector} {first : Selector}
    (hnamed : named line = first :: rest) : first.text.toList ≠ [] := by
  have hbare := isBare_of_named_eq_cons hnamed
  simpa [Selector.isBare] using hbare

theorem intercalate_append_singleton
    {separator last : List Char} {texts : List (List Char)} (htexts : texts ≠ []) :
    separator.intercalate (texts ++ [last]) =
      separator.intercalate texts ++ (separator ++ last) := by
  induction texts with
  | nil => contradiction
  | cons first rest ih =>
      cases rest with
      | nil => simp [List.intercalate_cons_cons]
      | cons second rest =>
          have htail := ih (by simp)
          rw [List.cons_append] at htail
          rw [List.cons_append, List.cons_append, List.intercalate_cons_cons,
            List.intercalate_cons_cons, htail]
          simp

theorem intercalate_ne_nil
    (separator : List Char) {first : List Char} (hfirst : first ≠ [])
    (texts : List (List Char)) :
    separator.intercalate (first :: texts) ≠ [] := by
  cases texts with
  | nil => simpa using hfirst
  | cons second rest => simp [List.intercalate_cons_cons, hfirst]

theorem Place.below_of_path_ne_nil {path : List Char} (hpath : path ≠ [])
    (segment : List Char) :
    (Place.mk path segment).below = path ++ ' ' :: segment := by
  simp [Place.below, hpath]

theorem pathOf_eq_intercalate (line : List Selector) :
    pathOf line =
      [' '].intercalate ((named line).map (·.text.toList)) := by
  induction line using List.reverseRecOn with
  | nil => rfl
  | append_singleton line selector ih =>
      rw [pathOf_append_singleton, ih, named_append]
      cases hnamed : named line with
      | nil =>
          cases hbare : selector.isBare with
          | true =>
              have htext : selector.text.toList = [] := by
                simpa [Selector.isBare] using hbare
              simp [Place.below, named, hbare, htext]
          | false => simp [Place.below, named, hbare]
      | cons first rest =>
          have hne := intercalate_ne_nil [' ']
            (text_ne_nil_of_named_eq_cons hnamed) (rest.map (·.text.toList))
          rw [if_neg (by simp), Place.below_of_path_ne_nil (by simpa using hne),
            List.map_append, List.map_singleton,
            intercalate_append_singleton (by simp)]
          rfl

theorem pathOf_eq_of_named_eq {first second : List Selector}
    (hnamed : named first = named second) : pathOf first = pathOf second := by
  rw [pathOf_eq_intercalate, pathOf_eq_intercalate, hnamed]

theorem pathOf_eq_nil_iff (line : List Selector) :
    pathOf line = [] ↔ named line = [] := by
  rw [pathOf_eq_intercalate]
  cases hnamed : named line with
  | nil => simp
  | cons first rest =>
      have hne := intercalate_ne_nil [' ']
        (text_ne_nil_of_named_eq_cons hnamed) (rest.map (·.text.toList))
      simpa using hne

/-! ## What a place tells about its line -/

private theorem map_ofText_text {line : List Selector}
    (hline : ∀ selector ∈ line, selector.IsSegment) :
    (line.map (·.text.toList)).map Selector.ofText = line := by
  have hread : ∀ selector ∈ line,
      Selector.ofText selector.text.toList = id selector :=
    fun selector hselector =>
      Selector.ofText_text (hline selector hselector).wellFormed
  rw [List.map_map]
  exact (List.map_congr_left hread).trans (List.map_id line)

private theorem texts_eq_splitOn_pathOf {line : List Selector}
    (hline : ∀ selector ∈ line, selector.IsSegment) (hne : named line ≠ []) :
    (named line).map (·.text.toList) = (pathOf line).splitOn ' ' := by
  rw [pathOf_eq_intercalate, List.splitOn_intercalate]
  · intro text htext
    rcases List.mem_map.mp htext with ⟨selector, hselector, rfl⟩
    have hmem := (List.dropWhile_suffix Selector.isBare).mem hselector
    exact (hline selector hmem).space_not_mem
  · simpa using hne

theorem named_eq_of_pathOf_eq
    {first second : List Selector}
    (hfirst : ∀ selector ∈ first, selector.IsSegment)
    (hsecond : ∀ selector ∈ second, selector.IsSegment)
    (hpath : pathOf first = pathOf second) : named first = named second := by
  by_cases hnil : named first = []
  · have hpathNil := (pathOf_eq_nil_iff first).mpr hnil
    rw [hpath, pathOf_eq_nil_iff] at hpathNil
    rw [hnil, hpathNil]
  · have hsecondNe : named second ≠ [] := by
      rwa [← pathOf_eq_nil_iff, hpath, pathOf_eq_nil_iff] at hnil
    have htexts :
        (named first).map (·.text.toList) =
          (named second).map (·.text.toList) := by
      rw [texts_eq_splitOn_pathOf hfirst hnil,
        texts_eq_splitOn_pathOf hsecond hsecondNe, hpath]
    have hfirstNamed : ∀ selector ∈ named first, selector.IsSegment :=
      fun selector hselector =>
        hfirst selector ((List.dropWhile_suffix _).mem hselector)
    have hsecondNamed : ∀ selector ∈ named second, selector.IsSegment :=
      fun selector hselector =>
        hsecond selector ((List.dropWhile_suffix _).mem hselector)
    rw [← map_ofText_text hfirstNamed, htexts, map_ofText_text hsecondNamed]

/-- Two lines end in one place exactly if they end in one segment and the
lines above it have one named part. -/
theorem placeOf?_eq_iff
    {first second : List Selector} {last other : Selector}
    (hfirst : ∀ selector ∈ first ++ [last], selector.IsSegment)
    (hsecond : ∀ selector ∈ second ++ [other], selector.IsSegment) :
    placeOf? (first ++ [last]) = placeOf? (second ++ [other]) ↔
      named first = named second ∧ last = other := by
  have hlast : last.IsSegment := hfirst last (by simp)
  have hother : other.IsSegment := hsecond other (by simp)
  rw [placeOf?_append_singleton, placeOf?_append_singleton,
    Option.some.injEq, Place.mk.injEq]
  constructor
  · rintro ⟨hpath, htext⟩
    refine ⟨named_eq_of_pathOf_eq ?_ ?_ hpath, ?_⟩
    · exact fun selector hmem => hfirst selector (List.mem_append_left _ hmem)
    · exact fun selector hmem => hsecond selector (List.mem_append_left _ hmem)
    · exact Selector.eq_of_text_eq hlast.wellFormed hother.wellFormed
        (String.toList_inj.mp htext)
  · rintro ⟨hnamed, rfl⟩
    exact ⟨pathOf_eq_of_named_eq hnamed, rfl⟩

/-! ## The lines that rules style -/

/-- The lines that a selector leads through, shortest first. -/
def lines (selector : String) : List (List Selector) := (chain selector).inits.tail

/-- The selectors that rules style, each with the properties it is given. -/
def stylings (rules : List Rule) : List (String × List Property) :=
  (rules.filter (fun rule => !rule.isTheme)).flatMap (fun rule =>
    rule.selectors.map (fun selector =>
      (selector, rule.declarations.map (Property.ofDeclaration selector))))

/-- The selectors of all rules that do not describe the theme. -/
def styledSelectors (rules : List Rule) : List String :=
  (rules.filter (fun rule => !rule.isTheme)).flatMap (·.selectors)

def styledLines (rules : List Rule) : List (List Selector) :=
  (styledSelectors rules).flatMap lines

theorem map_fst_stylings (rules : List Rule) :
    (stylings rules).map (·.1) = styledSelectors rules := by
  unfold stylings styledSelectors
  rw [List.map_flatMap]
  simp [Function.comp_def]

theorem mem_lines {selector : String} {line : List Selector} :
    line ∈ lines selector ↔ line ≠ [] ∧ line <+: chain selector := by
  unfold lines
  cases hchain : chain selector with
  | nil => simp [and_comm]
  | cons first rest =>
      rw [List.inits_cons, List.tail_cons, List.mem_map]
      constructor
      · rintro ⟨tail, htail, rfl⟩
        simpa using (List.mem_inits _ _).mp htail
      · rintro ⟨hne, hinitial⟩
        obtain ⟨head, tail, rfl⟩ := List.exists_cons_of_ne_nil hne
        rcases List.cons_prefix_cons.mp hinitial with ⟨rfl, htail⟩
        exact ⟨tail, (List.mem_inits _ _).mpr htail, rfl⟩

theorem mem_styledLines {rules : List Rule} {line : List Selector} :
    line ∈ styledLines rules ↔
      line ≠ [] ∧ ∃ selector ∈ styledSelectors rules, line <+: chain selector := by
  simp only [styledLines, List.mem_flatMap, mem_lines]
  constructor
  · rintro ⟨selector, hselector, hne, hinitial⟩
    exact ⟨hne, selector, hselector, hinitial⟩
  · rintro ⟨hne, selector, hselector, hinitial⟩
    exact ⟨selector, hselector, hne, hinitial⟩

theorem isSegment_of_mem_styledLines
    {rules : List Rule} {line : List Selector}
    (hline : line ∈ styledLines rules) :
    ∀ selector ∈ line, selector.IsSegment := by
  rcases mem_styledLines.mp hline with ⟨-, text, -, hinitial⟩
  exact fun selector hselector =>
    isSegment_of_mem_chain (hinitial.mem hselector)

theorem mem_styledLines_of_append
    {rules : List Rule} {line rest : List Selector} (hne : line ≠ [])
    (hline : line ++ rest ∈ styledLines rules) : line ∈ styledLines rules := by
  rcases mem_styledLines.mp hline with ⟨-, selector, hselector, hinitial⟩
  exact mem_styledLines.mpr
    ⟨hne, selector, hselector, (List.prefix_append line rest).trans hinitial⟩

end ThemeSheet

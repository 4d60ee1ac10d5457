import ThemeSheet.Proofs.Lineage
import Mathlib.Data.Set.Function

/-!
# The hierarchy of the styles

The lineage of a style is the line that it was found by, except for the bare
segments at the front: all of these are one style, and whether a root is below
it was settled by the first selector that led to the root.  Where no line
begins with a bare segment, styles are exactly the lines that the rules style.
-/

namespace ThemeSheet

/-! ## Bare segments -/

def Selector.bare : Selector := ⟨"", none, none⟩

theorem Selector.eq_bare {selector : Selector} (hsegment : selector.IsSegment)
    (hbare : selector.isBare = true) : selector = Selector.bare := by
  have hbareWellFormed : Selector.bare.WellFormed := wellFormed_ofSegment ""
  apply Selector.eq_of_text_eq hsegment.wellFormed hbareWellFormed
  have htext : selector.text.toList = [] := by
    simpa [Selector.isBare] using hbare
  rw [String.toList_eq_nil_iff.mp htext]
  rfl

theorem head_isBare_of_named_eq_nil {line : List Selector}
    (hnamed : named line = []) : ∀ selector ∈ line, selector.isBare = true := by
  simpa [named] using hnamed

theorem placeOf?_of_named_eq_nil {line : List Selector}
    (hne : line ≠ []) (hnamed : named line = []) :
    placeOf? line = some ⟨[], []⟩ := by
  obtain ⟨front, last, rfl⟩ := (List.eq_nil_or_concat' line).resolve_left hne
  have hfront : named front = [] := by
    rw [named_append] at hnamed
    by_contra hfrontNe
    rw [if_neg hfrontNe] at hnamed
    simp at hnamed
  have hlast : last.text.toList = [] := by
    simpa [Selector.isBare] using head_isBare_of_named_eq_nil hnamed last (by simp)
  rw [placeOf?_append_singleton, (pathOf_eq_nil_iff front).mpr hfront, hlast]

theorem named_append_singleton_of_bare {line : List Selector} {last : Selector}
    (hnamed : named line = []) (hlast : last.isBare = false) :
    named (line ++ [last]) = [last] := by
  rw [named_append, if_pos hnamed]
  simp [named, hlast]

theorem exists_prefix_of_head?_named {line : List Selector} {top : Selector}
    (htop : (named line).head? = some top) :
    ∃ front, named front = [] ∧ front ++ [top] <+: line := by
  rcases List.head?_eq_some_iff.mp htop with ⟨rest, hnamed⟩
  refine ⟨line.takeWhile Selector.isBare, ?_, rest, ?_⟩
  · rw [named, List.dropWhile_eq_nil_iff]
    intro selector hselector
    exact List.mem_takeWhile_imp hselector
  · rw [List.append_assoc, List.singleton_append, ← hnamed, named,
      List.takeWhile_append_dropWhile]

theorem named_eq_cons_append_of_prefix {line whole : List Selector}
    (hinitial : line <+: whole) {first : Selector} {rest : List Selector}
    (hnamed : named line = first :: rest) :
    ∃ more, named whole = first :: (rest ++ more) := by
  obtain ⟨more, rfl⟩ := hinitial
  refine ⟨more, ?_⟩
  rw [named_append, if_neg (by simp [hnamed]), hnamed]
  rfl

/-! ## Roots that were found below bare segments -/

/-- The first selector of the rules in which the given segment is the first
that has a text. -/
def firstUnder? (rules : List Rule) (top : Selector) : Option String :=
  (styledSelectors rules).find? (fun selector =>
    (named (chain selector)).head? = some top)

/-- Whether that selector has bare segments in front. -/
def isSunk (rules : List Rule) (top : Selector) : Bool :=
  (firstUnder? rules top).any (fun selector =>
    (chain selector).head?.any Selector.isBare)

/-- The lineage that the rules give to a line. -/
def settledLine (rules : List Rule) (line : List Selector) : List Selector :=
  match named line with
  | [] => [Selector.bare]
  | top :: rest =>
      (if isSunk rules top then [Selector.bare] else []) ++ top :: rest

theorem settledLine_of_named_eq {rules : List Rule} {first second : List Selector}
    (hnamed : named first = named second) :
    settledLine rules first = settledLine rules second := by
  unfold settledLine
  rw [hnamed]

theorem settledLine_append_singleton {rules : List Rule}
    {line : List Selector} (hnamed : named line ≠ []) (last : Selector) :
    settledLine rules (line ++ [last]) = settledLine rules line ++ [last] := by
  obtain ⟨top, rest, htop⟩ := List.exists_cons_of_ne_nil hnamed
  unfold settledLine
  rw [named_append, if_neg hnamed, htop]
  simp

/-- The first line to a root is a line of the first selector under the root. -/
theorem firstUnder?_of_find?_eq {rules : List Rule}
    {above : List Selector} {top : Selector} (htop : top.isBare = false)
    (habove : named above = [])
    (hfind : (styledLines rules).find? (fun visit =>
        placeOf? visit = placeOf? (above ++ [top])) = some (above ++ [top])) :
    ∃ selector, firstUnder? rules top = some selector ∧
      above ++ [top] <+: chain selector := by
  rw [styledLines, List.find?_flatMap, List.findSome?_eq_some_iff] at hfind
  rcases hfind with ⟨before, selector, behind, hselectors, hhere, hbefore⟩
  have hline := mem_lines.mp (List.mem_of_find?_eq_some hhere)
  have hnamed := named_append_singleton_of_bare habove htop
  obtain ⟨more, hmore⟩ := named_eq_cons_append_of_prefix hline.2 hnamed
  refine ⟨selector, ?_, hline.2⟩
  unfold firstUnder?
  rw [List.find?_eq_some_iff_append]
  refine ⟨by simp [hmore], before, behind, hselectors, ?_⟩
  intro other hother
  rw [Bool.not_eq_true', decide_eq_false_iff_not]
  intro hunder
  -- An earlier selector under the root would have led to it as well.
  obtain ⟨front, hfront, hinitial⟩ := exists_prefix_of_head?_named hunder
  have hnone := List.find?_eq_none.mp (hbefore other hother) (front ++ [top])
    (mem_lines.mpr ⟨by simp, hinitial⟩)
  have hpath := pathOf_eq_of_named_eq (hfront.trans habove.symm)
  rw [placeOf?_append_singleton, placeOf?_append_singleton, hpath] at hnone
  exact hnone (decide_eq_true rfl)

theorem isSunk_of_find?_eq {rules : List Rule}
    {above : List Selector} {top : Selector} (htop : top.isBare = false)
    (habove : named above = [])
    (hfind : (styledLines rules).find? (fun visit =>
        placeOf? visit = placeOf? (above ++ [top])) = some (above ++ [top])) :
    isSunk rules top = !above.isEmpty := by
  obtain ⟨selector, hfirst, rest, hrest⟩ := firstUnder?_of_find?_eq htop habove hfind
  unfold isSunk
  rw [hfirst, Option.any_some, ← hrest]
  cases above with
  | nil => simpa using htop
  | cons first above =>
      simpa using head_isBare_of_named_eq_nil habove first (by simp)

theorem settledLine_of_find?_eq {rules : List Rule}
    {above : List Selector} {last : Selector} (hsegment : last.IsSegment)
    (hfind : (styledLines rules).find? (fun visit =>
        placeOf? visit = placeOf? (above ++ [last])) = some (above ++ [last]))
    (hbare : named above = [] → last.isBare = true → above = []) :
    settledLine rules (above ++ [last]) =
      if above = [] then [last] else settledLine rules above ++ [last] := by
  by_cases hnamed : named above = []
  · cases hlast : last.isBare with
    | true =>
        have hnil := hbare hnamed hlast
        subst hnil
        rw [if_pos rfl, List.nil_append, settledLine, named,
          List.dropWhile_cons_of_pos hlast, List.dropWhile_nil,
          Selector.eq_bare hsegment hlast]
    | false =>
        rw [settledLine, named_append_singleton_of_bare hnamed hlast]
        simp only
        rw [isSunk_of_find?_eq hlast hnamed hfind]
        cases above with
        | nil => rfl
        | cons first rest =>
            rw [if_neg (List.cons_ne_nil _ _), settledLine, hnamed]
            rfl
  · have hne : above ≠ [] := by
      rintro rfl
      exact hnamed rfl
    rw [if_neg hne, settledLine_append_singleton hnamed]

/-! ## Lineages -/

section Built

variable {options : LoadOptions} {source : String} {rules : List Rule}
variable {theme : Theme}

/-- The style of bare segments is a root: whatever is above it would have the
same place. -/
theorem eq_nil_of_parent_eq {above : List Selector} {last : Selector}
    {place : Place} {style : Style}
    (hplace : placeOf? (above ++ [last]) = some place)
    (hstyle : (StyleForest.ofRules rules).styleAt? place = some style)
    (hparent : style.parent =
      (placeOf? above).bind (StyleForest.ofRules rules).indexOf?)
    (habove : named above = []) (hlast : last.isBare = true) : above = [] := by
  have hrecords := StyleForest.records_ofRules rules
  have hsettled := hrecords.settled_of_styleAt? hstyle
  have hnil : named (above ++ [last]) = [] := by
    rw [named_append, if_pos habove]
    simp [named, hlast]
  by_contra hne
  rw [placeOf?_of_named_eq_nil (by simp) hnil] at hplace
  rw [placeOf?_of_named_eq_nil hne habove, hplace, Option.bind_some,
    hrecords.indexOf?_of_styleAt? hstyle] at hparent
  have hlt := hsettled.parent_lt style.index hparent
  omega

/-- A style found by a line has the lineage that the rules give to the line. -/
theorem lineage_eq_settledLine
    (hbuild : (options.build source rules).1 = .ok theme)
    {line : List Selector} (hline : line ∈ styledLines rules)
    {place : Place} (hplace : placeOf? line = some place) {style : Style}
    (hstyle : (StyleForest.ofRules rules).styleAt? place = some style) :
    theme.lineage style = settledLine rules line := by
  -- The parent may have been found by another line than the one above, but
  -- its number is smaller.
  induction hindex : style.index using Nat.strong_induction_on
    generalizing line place style with
  | _ index ih =>
      obtain ⟨front, last, rfl⟩ := (List.eq_nil_or_concat' line).resolve_left
        (mem_styledLines.mp hline).1
      obtain ⟨above, hnamed, hfind, hselector, hparent⟩ :=
        origin_of_styleAt? hline hplace hstyle
      have horigin := List.mem_of_find?_eq_some hfind
      have hsame : placeOf? (above ++ [last]) = some place := by
        simpa using List.find?_some hfind
      have hparent? := parent?_of_parent_eq hbuild hparent
      have hbare : named above = [] → last.isBare = true → above = [] :=
        eq_nil_of_parent_eq hsame hstyle hparent
      have hwhole : settledLine rules (front ++ [last]) =
          settledLine rules (above ++ [last]) := by
        apply settledLine_of_named_eq
        rw [named_append, named_append, hnamed]
      rw [← hsame] at hfind
      rw [hwhole, settledLine_of_find?_eq
        (isSegment_of_mem_styledLines horigin last (by simp)) hfind hbare]
      by_cases hnil : above = []
      · subst hnil
        rw [if_pos rfl, Theme.lineage_of_parent?_eq_none hparent?, hselector]
      · have habove := mem_styledLines_of_append hnil horigin
        obtain ⟨abovePlace, parent, habovePlace, hparentAt, hmem⟩ :=
          exists_styleAt?_of_mem_styledLines hbuild habove
        rw [habovePlace, Option.bind_some, hparentAt] at hparent?
        have hordered := ordered_of_build hbuild
        have hstyleMem : style ∈ theme.styles := by
          rw [styles_of_build hbuild]
          exact StyleForest.mem_styles_of_styleAt? hstyle
        have hlt := (hordered.index_lt hparent? hstyleMem).2
        rw [if_neg hnil, hordered.lineage_eq_append hstyleMem hparent?,
          ih parent.index (by omega) habove habovePlace hparentAt rfl, hselector]

/-! ## Where every line begins with a text -/

/-- No selector begins with a bare segment. -/
def BeginsNamed (rules : List Rule) : Prop :=
  ∀ selector ∈ styledSelectors rules,
    ∀ first ∈ (chain selector).head?, first.isBare = false

theorem settledLine_eq_self (hfirst : BeginsNamed rules)
    {line : List Selector} (hline : line ∈ styledLines rules) :
    settledLine rules line = line := by
  rcases mem_styledLines.mp hline with ⟨hne, selector, hselector, hinitial⟩
  obtain ⟨top, rest, rfl⟩ := List.exists_cons_of_ne_nil hne
  obtain ⟨more, hmore⟩ := hinitial
  have htop : top.isBare = false := by
    apply hfirst selector hselector
    rw [← hmore]
    rfl
  have hnamed : named (top :: rest) = top :: rest :=
    List.dropWhile_cons_of_neg (by simp [htop])
  have hsunk : isSunk rules top = false := by
    cases hunder : firstUnder? rules top with
    | none => rw [isSunk, hunder, Option.any_none]
    | some other =>
        have hother := List.mem_of_find?_eq_some hunder
        rw [isSunk, hunder, Option.any_some]
        cases hhead : (chain other).head? with
        | none => rfl
        | some first => exact hfirst other hother first hhead
  unfold settledLine
  simp only [hnamed, hsunk]
  rfl

def firstLineAt (rules : List Rule) (place : Place) : List Selector :=
  ((styledLines rules).find? (fun visit => placeOf? visit = some place)).getD []

theorem lineage_eq_firstLineAt
    (hbuild : (options.build source rules).1 = .ok theme)
    (hfirst : BeginsNamed rules)
    {place : Place} {style : Style}
    (hstyle : (StyleForest.ofRules rules).styleAt? place = some style) :
    theme.lineage style = firstLineAt rules place := by
  obtain ⟨above, last, hfind, -, -⟩ :=
    ((StyleForest.records_ofRules rules).settled_of_styleAt? hstyle).origin
  have hline := List.mem_of_find?_eq_some hfind
  have hplace : placeOf? (above ++ [last]) = some place := by
    simpa using List.find?_some hfind
  rw [lineage_eq_settledLine hbuild hline hplace hstyle,
    settledLine_eq_self hfirst hline, firstLineAt, hfind, Option.getD_some]

theorem map_lineage_styles
    (hbuild : (options.build source rules).1 = .ok theme)
    (hfirst : BeginsNamed rules) :
    theme.styles.map theme.lineage = (styledLines rules).eraseDups := by
  have hrecords := StyleForest.records_ofRules rules
  have hstyles : theme.styles.map theme.lineage =
      (StyleForest.ofRules rules).places.map (firstLineAt rules) := by
    rw [styles_of_build hbuild, StyleForest.styles, StyleForest.places,
      List.map_map, List.map_map]
    apply List.map_congr_left
    intro entry hentry
    exact lineage_eq_firstLineAt hbuild hfirst (hrecords.styleAt?_of_mem hentry)
  rw [hstyles, hrecords.places_eq, map_eraseDups_filterMap]
  intro line hline
  obtain ⟨place, style, hplace, hstyle, -⟩ :=
    exists_styleAt?_of_mem_styledLines hbuild hline
  refine ⟨place, hplace, ?_⟩
  rw [← lineage_eq_firstLineAt hbuild hfirst hstyle,
    lineage_eq_settledLine hbuild hline hplace hstyle,
    settledLine_eq_self hfirst hline]

/-- Where no selector begins with a bare segment, the styles are the lines of
the rules, numbered as the lines come up first. -/
theorem lineage_bijOn_lines
    (hbuild : (options.build source rules).1 = .ok theme)
    (hfirst : ∀ selector ∈ styledSelectors rules,
      ∀ first ∈ (chain selector).head?, first.text ≠ "") :
    Set.BijOn theme.lineage {style | style ∈ theme.styles}
        {line | line ≠ [] ∧
          ∃ selector ∈ styledSelectors rules, line <+: chain selector} ∧
      theme.styles.map theme.lineage = (styledLines rules).eraseDups ∧
      theme.styles.map (·.index) = List.range theme.styles.length := by
  have hnamed : BeginsNamed rules := by
    intro selector hselector first hhead
    have htext := hfirst selector hselector first hhead
    simpa [Selector.isBare] using htext
  have hmap := map_lineage_styles hbuild hnamed
  refine ⟨⟨?_, ?_, ?_⟩, hmap, ?_⟩
  · intro style hstyle
    have hmem : theme.lineage style ∈ (styledLines rules).eraseDups := by
      rw [← hmap]
      exact List.mem_map_of_mem hstyle
    exact mem_styledLines.mp (List.mem_eraseDups.mp hmem)
  · have hnodup : (theme.styles.map theme.lineage).Nodup := by
      rw [hmap]
      exact nodup_eraseDups _
    intro style hstyle other hother heq
    exact List.inj_on_of_nodup_map hnodup hstyle hother heq
  · intro line hline
    have hmem : line ∈ theme.styles.map theme.lineage := by
      rw [hmap]
      exact List.mem_eraseDups.mpr (mem_styledLines.mpr hline)
    exact List.mem_map.mp hmem
  · apply List.ext_getElem
    · simp
    · intro index hindex hrange
      rw [List.getElem_map, List.getElem_range]
      have hlt : index < theme.styles.length := by simpa using hindex
      exact (ordered_of_build hbuild index _ (List.getElem?_eq_getElem hlt)).1

def sharingRules : List Rule :=
  [⟨["Theme"], [⟨"Name", "Plain"⟩]⟩,
    ⟨["Frame ::Title Label"], [⟨"color", "red"⟩]⟩,
    ⟨["Frame Button.wide", "Frame"], [⟨"color", "green"⟩]⟩]

theorem lineage_bijOn_lines_sharingRules :
    ∃ theme,
      (({} : LoadOptions).build "plain.css" sharingRules).1 = .ok theme ∧
      (∀ selector ∈ styledSelectors sharingRules,
        ∀ first ∈ (chain selector).head?, first.text ≠ "") ∧
      theme.styles.length = 4 ∧
      Set.BijOn theme.lineage {style | style ∈ theme.styles}
          {line | line ≠ [] ∧
            ∃ selector ∈ styledSelectors sharingRules, line <+: chain selector} ∧
        theme.styles.map theme.lineage = (styledLines sharingRules).eraseDups ∧
        theme.styles.map (·.index) = List.range theme.styles.length := by
  obtain ⟨theme, hbuild⟩ : ∃ theme,
      (({} : LoadOptions).build "plain.css" sharingRules).1 = .ok theme :=
    ⟨_, rfl⟩
  have hfirst : ∀ selector ∈ styledSelectors sharingRules,
      ∀ first ∈ (chain selector).head?, first.text ≠ "" := by
    decide
  have hlength : theme.styles.length = 4 := by
    rw [styles_of_build hbuild]
    decide
  exact ⟨theme, hbuild, hfirst, hlength, lineage_bijOn_lines hbuild hfirst⟩

end Built

end ThemeSheet

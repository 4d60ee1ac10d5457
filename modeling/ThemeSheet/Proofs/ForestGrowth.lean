import ThemeSheet.Load.Collected
import ThemeSheet.Proofs.Line
import Mathlib.Data.List.Nodup

/-!
# Growth of the forest

A forest records the lines that were entered: there is one style for each
place, in the order in which the places came up, and a style is what the first
line to its place made it.  Every step of a descent keeps this up, and so do
declarations, which change nothing but properties.
-/

namespace ThemeSheet

/-! ## Lists without repetitions -/

section EraseDups

variable {α : Type} [BEq α] [LawfulBEq α]

theorem eraseDups_append_singleton (firsts : List α) (last : α) :
    (firsts ++ [last]).eraseDups =
      firsts.eraseDups ++ if last ∈ firsts then [] else [last] := by
  rw [List.eraseDups_append]
  by_cases hmem : last ∈ firsts
  · rw [if_pos hmem, List.removeAll, List.filter_cons_of_neg (by simpa using hmem)]
    rfl
  · rw [if_neg hmem, List.removeAll, List.filter_cons_of_pos (by simpa using hmem)]
    rfl

theorem nodup_eraseDups (row : List α) : row.eraseDups.Nodup := by
  induction row using List.reverseRecOn with
  | nil => exact List.nodup_nil
  | append_singleton firsts last ih =>
      rw [eraseDups_append_singleton]
      by_cases hmem : last ∈ firsts
      · rw [if_pos hmem, List.append_nil]
        exact ih
      · rw [if_neg hmem]
        apply List.Nodup.append ih (List.nodup_singleton last)
        simpa using hmem

theorem map_eraseDups_filterMap
    {β : Type} [BEq β] [LawfulBEq β] {encode : α → Option β} {decode : β → α}
    {row : List α}
    (hdecode : ∀ a ∈ row, ∃ b, encode a = some b ∧ decode b = a) :
    (row.filterMap encode).eraseDups.map decode = row.eraseDups := by
  induction row using List.reverseRecOn with
  | nil => rfl
  | append_singleton row last ih =>
      obtain ⟨code, hcode, hlast⟩ := hdecode last (by simp)
      have hmem : code ∈ row.filterMap encode ↔ last ∈ row := by
        rw [List.mem_filterMap]
        constructor
        · rintro ⟨other, hother, hsame⟩
          obtain ⟨otherCode, hotherCode, rfl⟩ :=
            hdecode other (List.mem_append_left _ hother)
          rw [hotherCode, Option.some.injEq] at hsame
          rwa [← hlast, ← hsame]
        · exact fun hrow => ⟨last, hrow, hcode⟩
      have hrest := ih (fun a ha => hdecode a (List.mem_append_left _ ha))
      rw [List.filterMap_append, List.filterMap_cons_some hcode,
        List.filterMap_nil, eraseDups_append_singleton,
        eraseDups_append_singleton, List.map_append, hrest]
      by_cases hrow : last ∈ row
      · rw [if_pos hrow, if_pos (hmem.mpr hrow)]
        rfl
      · rw [if_neg hrow, if_neg (fun h => hrow (hmem.mp h)), List.map_singleton, hlast]

end EraseDups

namespace StyleForest

def places (forest : StyleForest) : List Place := forest.entries.map (·.1)

theorem indexOf?_eq_findIdx? (forest : StyleForest) (place : Place) :
    forest.indexOf? place = forest.places.findIdx? (· = place) := by
  rw [places, List.findIdx?_map]
  rfl

theorem indexOf?_eq_none_iff (forest : StyleForest) (place : Place) :
    forest.indexOf? place = none ↔ place ∉ forest.places := by
  rw [indexOf?_eq_findIdx?, List.findIdx?_eq_none_iff]
  constructor
  · intro hnone hmem
    simpa using hnone place hmem
  · intro hnot other hother
    rw [decide_eq_false_iff_not]
    rintro rfl
    exact hnot hother

theorem getElem?_of_indexOf? {forest : StyleForest} {place : Place} {index : Nat}
    (hindex : forest.indexOf? place = some index) :
    forest.places[index]? = some place := by
  rw [indexOf?_eq_findIdx?, List.findIdx?_eq_some_iff_getElem] at hindex
  obtain ⟨hlt, hplace, -⟩ := hindex
  rw [List.getElem?_eq_getElem hlt]
  simpa using hplace

theorem indexOf?_of_getElem? {forest : StyleForest} {place : Place} {index : Nat}
    (hnodup : forest.places.Nodup)
    (hplace : forest.places[index]? = some place) :
    forest.indexOf? place = some index := by
  cases hfound : forest.indexOf? place with
  | none =>
      rw [indexOf?_eq_none_iff] at hfound
      exact (hfound (List.mem_of_getElem? hplace)).elim
  | some found =>
      have hsame := getElem?_of_indexOf? hfound
      have hlt := (List.getElem?_eq_some_iff.mp hplace).1
      rw [(List.getElem?_inj hlt hnodup).mp (hplace.trans hsame.symm)]

theorem indexOf?_lt {forest : StyleForest} {place : Place} {index : Nat}
    (hindex : forest.indexOf? place = some index) :
    index < forest.entries.length := by
  have hlt := (List.getElem?_eq_some_iff.mp (getElem?_of_indexOf? hindex)).1
  simpa [places] using hlt

theorem indexOf?_of_isPrefix {forest grown : StyleForest} {place : Place}
    (hgrown : forest.places <+: grown.places) (hplace : place ∈ forest.places) :
    grown.indexOf? place = forest.indexOf? place := by
  obtain ⟨more, hmore⟩ := hgrown
  cases hindex : forest.indexOf? place with
  | none =>
      rw [indexOf?_eq_none_iff] at hindex
      exact (hindex hplace).elim
  | some index =>
      rw [indexOf?_eq_findIdx?] at hindex ⊢
      rw [← hmore, List.findIdx?_append, hindex]
      rfl

/-- What the lines that were entered say about the style with a number. -/
structure Settled (forest : StyleForest) (visits : List (List Selector))
    (index : Nat) (place : Place) (style : Style) : Prop where
  index_eq : style.index = index
  /-- The first line to the place gave the selector and the parent. -/
  origin : ∃ line selector,
    visits.find? (fun visit => placeOf? visit = some place) =
        some (line ++ [selector]) ∧
      style.selector = selector ∧
      style.parent = (placeOf? line).bind forest.indexOf?
  parent_lt : ∀ parent ∈ style.parent, parent < index

structure Records (forest : StyleForest) (visits : List (List Selector)) :
    Prop where
  places_eq : forest.places = (visits.filterMap placeOf?).eraseDups
  /-- The line above a line that was entered has been entered. -/
  above_mem : ∀ line selector, line ++ [selector] ∈ visits →
    ∀ above ∈ placeOf? line, above ∈ forest.places
  settled : ∀ index place style,
    forest.entries[index]? = some (place, style) →
      forest.Settled visits index place style

variable {forest : StyleForest} {visits : List (List Selector)}

theorem records_empty : empty.Records [] := by
  constructor <;> simp [empty, places]

theorem Records.nodup
    (hrecords : forest.Records visits) : forest.places.Nodup := by
  rw [hrecords.places_eq]
  exact nodup_eraseDups _

theorem Records.mem_places_iff
    (hrecords : forest.Records visits) (place : Place) :
    place ∈ forest.places ↔ ∃ visit ∈ visits, placeOf? visit = some place := by
  rw [hrecords.places_eq, List.mem_eraseDups, List.mem_filterMap]

theorem Settled.mono
    {grown : StyleForest} {more : List (List Selector)}
    {index : Nat} {place : Place} {style : Style}
    (hrecords : forest.Records visits)
    (hgrown : forest.places <+: grown.places)
    (hsettled : forest.Settled visits index place style) :
    grown.Settled (visits ++ more) index place style where
  index_eq := hsettled.index_eq
  parent_lt := hsettled.parent_lt
  origin := by
    obtain ⟨line, selector, hfind, hselector, hparent⟩ := hsettled.origin
    refine ⟨line, selector, ?_, hselector, ?_⟩
    · rw [List.find?_append, hfind]
      rfl
    · have hmem := List.mem_of_find?_eq_some hfind
      rw [hparent]
      cases habove : placeOf? line with
      | none => rfl
      | some above =>
          have haboveMem := hrecords.above_mem line selector hmem above habove
          simpa using (indexOf?_of_isPrefix hgrown haboveMem).symm

/-! ## One step of a descent -/

theorem enter_of_mem {place : Place} {index : Nat}
    (hindex : forest.indexOf? place = some index)
    (parent : Option Nat) (selector : Selector) :
    forest.enter place parent selector = (forest, index) := by
  simp only [enter, hindex]

theorem enter_of_not_mem {place : Place}
    (hindex : forest.indexOf? place = none)
    (parent : Option Nat) (selector : Selector) :
    forest.enter place parent selector =
      (⟨forest.entries ++
          [(place, Style.bare forest.entries.length parent selector)]⟩,
        forest.entries.length) := by
  simp only [enter, hindex]

private theorem Records.settled_bare
    {grown : StyleForest}
    (hrecords : forest.Records visits)
    (hgrown : forest.places <+: grown.places)
    {line : List Selector} {selector : Selector}
    (habove : ∀ above ∈ placeOf? line, above ∈ forest.places)
    (hnew : ⟨pathOf line, selector.text.toList⟩ ∉ forest.places) :
    grown.Settled (visits ++ [line ++ [selector]]) forest.entries.length
      ⟨pathOf line, selector.text.toList⟩
      (Style.bare forest.entries.length
        ((placeOf? line).bind forest.indexOf?) selector) where
  index_eq := rfl
  origin := by
    refine ⟨line, selector, ?_, rfl, ?_⟩
    · have hnone :
          visits.find? (fun visit =>
            placeOf? visit = some ⟨pathOf line, selector.text.toList⟩) = none := by
        rw [List.find?_eq_none]
        intro visit hvisit
        rw [decide_eq_true_eq]
        intro heq
        exact hnew ((hrecords.mem_places_iff _).mpr ⟨visit, hvisit, heq⟩)
      rw [List.find?_append, hnone]
      simp
    · simp only [Style.bare]
      cases hline : placeOf? line with
      | none => rfl
      | some above =>
          simpa using (indexOf?_of_isPrefix hgrown (habove above hline)).symm
  parent_lt := by
    intro parent hparent
    rcases Option.bind_eq_some_iff.mp hparent with ⟨above, -, hindex⟩
    exact indexOf?_lt hindex

private theorem places_visit (visits : List (List Selector))
    (line : List Selector) (selector : Selector) :
    ((visits ++ [line ++ [selector]]).filterMap placeOf?).eraseDups =
      (visits.filterMap placeOf?).eraseDups ++
        if ⟨pathOf line, selector.text.toList⟩ ∈ visits.filterMap placeOf?
        then [] else [⟨pathOf line, selector.text.toList⟩] := by
  rw [← eraseDups_append_singleton, List.filterMap_append]
  simp

private theorem Records.above_mem_visit
    (hrecords : forest.Records visits) {line : List Selector} {selector : Selector}
    (habove : ∀ above ∈ placeOf? line, above ∈ forest.places) :
    ∀ other last, other ++ [last] ∈ visits ++ [line ++ [selector]] →
      ∀ above ∈ placeOf? other, above ∈ forest.places := by
  intro other last hmem
  rcases List.mem_append.mp hmem with hold | hnew
  · exact hrecords.above_mem other last hold
  · have hline := List.mem_singleton.mp hnew
    rw [(List.append_inj' hline rfl).1]
    exact habove

private theorem Records.revisit
    (hrecords : forest.Records visits) (line : List Selector) (selector : Selector)
    (habove : ∀ above ∈ placeOf? line, above ∈ forest.places)
    (hmem : ⟨pathOf line, selector.text.toList⟩ ∈ forest.places) :
    forest.Records (visits ++ [line ++ [selector]]) := by
  constructor
  · rw [hrecords.places_eq, List.mem_eraseDups] at hmem
    rw [places_visit, if_pos hmem, List.append_nil]
    exact hrecords.places_eq
  · exact hrecords.above_mem_visit habove
  · intro found place style hentry
    exact (hrecords.settled found place style hentry).mono hrecords
      (List.prefix_refl _)

private theorem Records.visit
    (hrecords : forest.Records visits) (line : List Selector) (selector : Selector)
    (habove : ∀ above ∈ placeOf? line, above ∈ forest.places)
    (hnew : ⟨pathOf line, selector.text.toList⟩ ∉ forest.places) :
    (StyleForest.mk (forest.entries ++
        [(⟨pathOf line, selector.text.toList⟩,
          Style.bare forest.entries.length
            ((placeOf? line).bind forest.indexOf?) selector)])).Records
      (visits ++ [line ++ [selector]]) := by
  have hplaces :
      (StyleForest.mk (forest.entries ++
        [(⟨pathOf line, selector.text.toList⟩,
          Style.bare forest.entries.length
            ((placeOf? line).bind forest.indexOf?) selector)])).places =
        forest.places ++ [⟨pathOf line, selector.text.toList⟩] := by
    simp [places]
  have hinitial := List.prefix_append forest.places
    [⟨pathOf line, selector.text.toList⟩]
  rw [← hplaces] at hinitial
  constructor
  · have hnot := hnew
    rw [hrecords.places_eq, List.mem_eraseDups] at hnot
    rw [hplaces, places_visit, if_neg hnot, ← hrecords.places_eq]
  · intro other last hmem above hot
    exact hinitial.mem (hrecords.above_mem_visit habove other last hmem above hot)
  · intro found place style hentry
    by_cases hlt : found < forest.entries.length
    · rw [List.getElem?_append_left hlt] at hentry
      exact (hrecords.settled found place style hentry).mono hrecords hinitial
    · have hlast : found = forest.entries.length := by
        have hbound := (List.getElem?_eq_some_iff.mp hentry).1
        simp only [List.length_append, List.length_singleton] at hbound
        omega
      subst hlast
      simp only [List.getElem?_concat_length, Option.some.injEq,
        Prod.mk.injEq] at hentry
      obtain ⟨rfl, rfl⟩ := hentry
      exact hrecords.settled_bare hinitial habove hnew

/-- Entering the last segment of a line whose other segments were entered. -/
theorem Records.enter
    (hrecords : forest.Records visits) (line : List Selector) (selector : Selector)
    (habove : ∀ above ∈ placeOf? line, above ∈ forest.places) :
    (forest.enter ⟨pathOf line, selector.text.toList⟩
        ((placeOf? line).bind forest.indexOf?) selector).1.Records
      (visits ++ [line ++ [selector]]) := by
  cases hindex : forest.indexOf? ⟨pathOf line, selector.text.toList⟩ with
  | some index =>
      rw [enter_of_mem hindex]
      apply hrecords.revisit line selector habove
      exact List.mem_of_getElem? (getElem?_of_indexOf? hindex)
  | none =>
      rw [enter_of_not_mem hindex]
      apply hrecords.visit line selector habove
      exact (indexOf?_eq_none_iff _ _).mp hindex

theorem indexOf?_enter (forest : StyleForest) (place : Place)
    (parent : Option Nat) (selector : Selector) :
    (forest.enter place parent selector).1.indexOf? place =
      some (forest.enter place parent selector).2 := by
  cases hindex : forest.indexOf? place with
  | some index => rw [enter_of_mem hindex, hindex]
  | none =>
      rw [enter_of_not_mem hindex]
      simp only [indexOf?, List.findIdx?_append] at hindex ⊢
      rw [hindex]
      simp

/-! ## Descents and declarations -/

private theorem map_append_inits_tail_cons
    (line rest : List Selector) (selector : Selector) :
    (selector :: rest).inits.tail.map (line ++ ·) =
      (line ++ [selector]) ::
        rest.inits.tail.map ((line ++ [selector]) ++ ·) := by
  rw [List.inits_cons, List.tail_cons, List.map_map]
  cases rest with
  | nil => rfl
  | cons next rest => simp [Function.comp_def]

/-- A descent along the rest of a line enters all that is left of it. -/
theorem Records.descend
    (hrecords : forest.Records visits)
    (line rest : List Selector)
    (habove : ∀ above ∈ placeOf? line, above ∈ forest.places) :
    let reached := forest.descend (pathOf line)
      ((placeOf? line).bind forest.indexOf?) rest
    reached.1.Records (visits ++ rest.inits.tail.map (line ++ ·)) ∧
      reached.2 = (placeOf? (line ++ rest)).bind reached.1.indexOf? := by
  induction rest generalizing forest visits line with
  | nil => simpa [StyleForest.descend] using hrecords
  | cons selector rest ih =>
      have hentered := hrecords.enter line selector habove
      have hindex := indexOf?_enter forest ⟨pathOf line, selector.text.toList⟩
        ((placeOf? line).bind forest.indexOf?) selector
      simp only [StyleForest.descend]
      generalize forest.enter ⟨pathOf line, selector.text.toList⟩
        ((placeOf? line).bind forest.indexOf?) selector = entered at hentered hindex ⊢
      have hplace : ∀ above ∈ placeOf? (line ++ [selector]),
          above ∈ entered.1.places := by
        intro above habove
        rw [placeOf?_append_singleton, Option.mem_some_iff] at habove
        subst above
        exact List.mem_of_getElem? (getElem?_of_indexOf? hindex)
      have hrest := ih hentered (line ++ [selector]) hplace
      rw [placeOf?_append_singleton, Option.bind_some, hindex,
        pathOf_append_singleton] at hrest
      rw [map_append_inits_tail_cons]
      simpa using hrest

def growTo (forest : StyleForest) (selector : String) : StyleForest :=
  (forest.descend [] none (chain selector)).1

theorem Records.growTo
    (hrecords : forest.Records visits) (selector : String) :
    (forest.growTo selector).Records (visits ++ lines selector) := by
  have hreached := (hrecords.descend [] (chain selector) (by simp)).1
  simpa [StyleForest.growTo, lines, pathOf] using hreached

theorem declare_eq
    (hrecords : forest.Records visits) (selector : String)
    (properties : List Property) :
    forest.declare selector properties =
      match (target? selector).bind (forest.growTo selector).indexOf? with
      | some index => (forest.growTo selector).declareAt index properties
      | none => forest.growTo selector := by
  have hreached := (hrecords.descend [] (chain selector) (by simp)).2
  simp only [pathOf, List.foldl_nil, placeOf?_nil, Option.bind_none,
    List.nil_append] at hreached
  rw [target?, StyleForest.growTo, ← hreached]
  simp only [declare, chain]
  rcases forest.descend [] none _ with ⟨grown, _ | index⟩ <;> rfl

theorem getElem?_declareAt (forest : StyleForest) (index : Nat)
    (properties : List Property) (found : Nat) :
    (forest.declareAt index properties).entries[found]? =
      forest.entries[found]?.map (fun entry =>
        (entry.1,
          if found = index then entry.2.declare properties else entry.2)) := by
  simp only [declareAt, List.getElem?_modify]
  by_cases heq : index = found
  · subst found
    simp
  · simp [heq, Ne.symm heq]

@[simp] theorem places_declareAt (forest : StyleForest) (index : Nat)
    (properties : List Property) :
    (forest.declareAt index properties).places = forest.places := by
  apply List.ext_getElem?
  intro found
  rw [places, places, List.getElem?_map, List.getElem?_map, getElem?_declareAt]
  simp [Function.comp_def]

@[simp] theorem indexOf?_declareAt (forest : StyleForest) (index : Nat)
    (properties : List Property) :
    (forest.declareAt index properties).indexOf? = forest.indexOf? := by
  funext place
  rw [indexOf?_eq_findIdx?, places_declareAt, ← indexOf?_eq_findIdx?]

theorem Records.declareAt
    (hrecords : forest.Records visits) (index : Nat)
    (properties : List Property) :
    (forest.declareAt index properties).Records visits := by
  constructor
  · rw [places_declareAt]
    exact hrecords.places_eq
  · rw [places_declareAt]
    exact hrecords.above_mem
  · intro found place style hentry
    rw [getElem?_declareAt] at hentry
    rcases Option.map_eq_some_iff.mp hentry with ⟨⟨oldPlace, old⟩, hold, heq⟩
    simp only [Prod.mk.injEq] at heq
    obtain ⟨rfl, rfl⟩ := heq
    have hsettled := hrecords.settled found oldPlace old hold
    split
    next =>
      refine ⟨hsettled.index_eq, ?_, hsettled.parent_lt⟩
      rw [indexOf?_declareAt]
      exact hsettled.origin
    next =>
      refine ⟨hsettled.index_eq, ?_, hsettled.parent_lt⟩
      rw [indexOf?_declareAt]
      exact hsettled.origin

theorem Records.declare
    (hrecords : forest.Records visits) (selector : String)
    (properties : List Property) :
    (forest.declare selector properties).Records (visits ++ lines selector) := by
  rw [declare_eq hrecords]
  split
  next index _ => exact (hrecords.growTo selector).declareAt index properties
  next => exact hrecords.growTo selector

def grown (row : List (String × List Property)) : StyleForest :=
  row.foldl (fun forest (selector, properties) => forest.declare selector properties)
    empty

@[simp] theorem grown_append_singleton
    (row : List (String × List Property)) (styling : String × List Property) :
    grown (row ++ [styling]) = (grown row).declare styling.1 styling.2 := by
  simp [grown]

/-- What the rules that do not describe the theme make of the forest. -/
def ofRules (rules : List Rule) : StyleForest := (Collected.ofRules rules).forest

theorem forest_add (collected : Collected) (rule : Rule) :
    (collected.add rule).forest =
      (stylings [rule]).foldl
        (fun forest (selector, properties) => forest.declare selector properties)
        collected.forest := by
  by_cases htheme : rule.isTheme
  · simp [Collected.add, stylings, htheme]
  · simp [Collected.add, stylings, htheme, List.foldl_map]

theorem ofRules_eq_grown (rules : List Rule) :
    ofRules rules = grown (stylings rules) := by
  induction rules using List.reverseRecOn with
  | nil => rfl
  | append_singleton rules rule ih =>
      have hstep : ofRules (rules ++ [rule]) =
          ((Collected.ofRules rules).add rule).forest := by
        simp [ofRules, Collected.ofRules]
      have hstylings : stylings (rules ++ [rule]) = stylings rules ++ stylings [rule] := by
        simp [stylings]
      rw [hstep, forest_add, hstylings, grown, List.foldl_append, ← grown, ← ih]
      rfl

theorem records_grown (row : List (String × List Property)) :
    (grown row).Records (row.flatMap (fun styling => lines styling.1)) := by
  induction row using List.reverseRecOn with
  | nil => exact records_empty
  | append_singleton row styling ih =>
      rw [grown_append_singleton, List.flatMap_append, List.flatMap_singleton]
      exact ih.declare styling.1 styling.2

/-- The forest of rules records the lines that the rules style. -/
theorem records_ofRules (rules : List Rule) :
    (ofRules rules).Records (styledLines rules) := by
  have hrecords := records_grown (stylings rules)
  have hlines :
      (stylings rules).flatMap (fun styling => lines styling.1) =
        styledLines rules := by
    rw [styledLines, ← map_fst_stylings, List.flatMap_map]
  rwa [hlines, ← ofRules_eq_grown] at hrecords

end StyleForest

end ThemeSheet

import ThemeSheet.Selector
import Mathlib.Data.List.TakeWhile

/-!
# The text of a selector

A selector that was read from a segment keeps the markers out of its parts:
no marker in the element, no point in the id and no hash in the class.  So its
text reads back as the same selector, and selectors with one text are equal.
-/

namespace ThemeSheet

private theorem forall_decide_ne {marker : Char} {text : List Char}
    (hmarker : marker ∉ text) : ∀ c ∈ text, decide (c ≠ marker) = true := by
  intro c hc
  rw [decide_eq_true_eq]
  rintro rfl
  exact hmarker hc

theorem partAfter?_of_not_mem
    {marker stop : Char} {text : List Char} (hmarker : marker ∉ text) :
    partAfter? marker stop text = none := by
  have hdrop : text.dropWhile (· ≠ marker) = [] :=
    List.dropWhile_eq_nil_iff.mpr (forall_decide_ne hmarker)
  simp only [partAfter?, hdrop]

theorem partAfter?_append
    {marker stop : Char} {front part rest : List Char}
    (hfront : marker ∉ front) (hpart : stop ∉ part)
    (hrest : ∀ c ∈ rest.head?, c = stop) :
    partAfter? marker stop (front ++ marker :: (part ++ rest)) = some part := by
  have hdrop :
      (front ++ marker :: (part ++ rest)).dropWhile (· ≠ marker) =
        marker :: (part ++ rest) := by
    rw [List.dropWhile_append_of_pos (forall_decide_ne hfront),
      List.dropWhile_cons]
    simp
  have htake : (part ++ rest).takeWhile (· ≠ stop) = part := by
    rw [List.takeWhile_append_of_pos (forall_decide_ne hpart)]
    cases rest with
    | nil => simp
    | cons c rest =>
        have hc : c = stop := hrest c rfl
        simp [hc]
  simp only [partAfter?, hdrop, htake]

theorem not_mem_of_partAfter?
    {marker stop : Char} {text part : List Char}
    (hpart : partAfter? marker stop text = some part) : stop ∉ part := by
  unfold partAfter? at hpart
  split at hpart
  next => cases hpart
  next first rest hdrop =>
    simp only [Option.some.injEq] at hpart
    subst part
    intro hstop
    simpa using List.mem_takeWhile_imp hstop

theorem mem_of_mem_partAfter?
    {marker stop c : Char} {text part : List Char}
    (hpart : partAfter? marker stop text = some part) (hc : c ∈ part) :
    c ∈ text := by
  unfold partAfter? at hpart
  split at hpart
  next => cases hpart
  next first rest hdrop =>
    simp only [Option.some.injEq] at hpart
    subst part
    apply (List.dropWhile_suffix (· ≠ marker)).mem
    rw [hdrop]
    exact List.mem_cons_of_mem first ((List.takeWhile_prefix _).mem hc)

theorem mem_of_mem_cutPath {c : Char} {text : List Char}
    (hc : c ∈ (cutPath text).1) : c ∈ text := by
  fun_induction cutPath text with
  | case1 => cases hc
  | case2 path => cases hc
  | case3 first rest hpath ih =>
      rcases List.mem_cons.mp hc with rfl | hrest
      · exact List.mem_cons_self
      · exact List.mem_cons_of_mem first (ih hrest)

namespace Selector

/-- Reads a segment that has no path. -/
def ofText (text : List Char) : Selector :=
  { element := String.ofList (text.takeWhile (fun c => c ≠ '#' ∧ c ≠ '.'))
    id := (partAfter? '#' '.' text).map String.ofList
    className := (partAfter? '.' '#' text).map String.ofList }

theorem ofSegment_eq_ofText (segment : String) :
    ofSegment segment = ofText (cutPath segment.toList).1 := rfl

/-- The markers that a part must not hold, so that it ends where it should. -/
structure WellFormed (selector : Selector) : Prop where
  element : ∀ c ∈ selector.element.toList, c ≠ '#' ∧ c ≠ '.'
  id : ∀ id ∈ selector.id, '.' ∉ id.toList
  className : ∀ name ∈ selector.className, '#' ∉ name.toList

theorem wellFormed_ofText (text : List Char) : (ofText text).WellFormed where
  element := by
    intro c hc
    simp only [ofText, String.toList_ofList] at hc
    simpa using List.mem_takeWhile_imp hc
  id := by
    intro id hid
    rcases Option.map_eq_some_iff.mp hid with ⟨part, hpart, rfl⟩
    rw [String.toList_ofList]
    exact not_mem_of_partAfter? hpart
  className := by
    intro name hname
    rcases Option.map_eq_some_iff.mp hname with ⟨part, hpart, rfl⟩
    rw [String.toList_ofList]
    exact not_mem_of_partAfter? hpart

theorem wellFormed_ofSegment (segment : String) :
    (ofSegment segment).WellFormed := by
  rw [ofSegment_eq_ofText]
  exact wellFormed_ofText _

def marked (marker : Char) : Option String → List Char
  | none => []
  | some part => marker :: part.toList

theorem toList_text (selector : Selector) :
    selector.text.toList =
      selector.element.toList ++
        (marked '#' selector.id ++ marked '.' selector.className) := by
  cases hid : selector.id <;> cases hclass : selector.className <;>
    simp [text, marked, hid, hclass]

private theorem head?_marked {marker c : Char} {part : Option String}
    (hc : c ∈ (marked marker part).head?) : c = marker := by
  cases part with
  | none => cases hc
  | some part => simpa [marked, eq_comm] using hc

private theorem not_mem_marked
    {marker other : Char} {part : Option String} (hne : other ≠ marker)
    (hpart : ∀ text ∈ part, other ∉ text.toList) :
    other ∉ marked marker part := by
  cases part with
  | none => simp [marked]
  | some part => simpa [marked, hne] using hpart part rfl

private theorem takeWhile_marked
    {element : List Char} {id className : Option String}
    (helement : ∀ c ∈ element, c ≠ '#' ∧ c ≠ '.') :
    (element ++ (marked '#' id ++ marked '.' className)).takeWhile
      (fun c => c ≠ '#' ∧ c ≠ '.') = element := by
  rw [List.takeWhile_append_of_pos (by simpa using helement)]
  cases id <;> cases className <;> simp [marked]

theorem ofText_text {selector : Selector} (hselector : selector.WellFormed) :
    ofText selector.text.toList = selector := by
  obtain ⟨element, id, className⟩ := selector
  have helement := hselector.element
  have hid := hselector.id
  have hclass := hselector.className
  simp only at helement hid hclass
  have hhash : '#' ∉ element.toList := fun hmem => (helement _ hmem).1 rfl
  have hpoint : '.' ∉ element.toList := fun hmem => (helement _ hmem).2 rfl
  have hidPart :
      (partAfter? '#' '.' (element.toList ++
        (marked '#' id ++ marked '.' className))).map String.ofList = id := by
    cases id with
    | none =>
        have hnone :
            '#' ∉ element.toList ++ (marked '#' none ++ marked '.' className) := by
          simpa [marked, hhash] using not_mem_marked (by decide) hclass
        rw [partAfter?_of_not_mem hnone, Option.map_none]
    | some part =>
        rw [marked, List.cons_append,
          partAfter?_append hhash (hid part rfl) (fun c => head?_marked)]
        simp
  have hclassPart :
      (partAfter? '.' '#' (element.toList ++
        (marked '#' id ++ marked '.' className))).map String.ofList =
        className := by
    have hfront : '.' ∉ element.toList ++ marked '#' id := by
      simpa [hpoint] using not_mem_marked (by decide) hid
    rw [← List.append_assoc]
    cases className with
    | none =>
        rw [marked, List.append_nil, partAfter?_of_not_mem hfront,
          Option.map_none]
    | some part =>
        have hpart := partAfter?_append hfront (hclass part rfl)
          (fun c (hc : c ∈ ([] : List Char).head?) => by cases hc)
        rw [List.append_nil] at hpart
        rw [marked, hpart, Option.map_some, String.ofList_toList]
  rw [toList_text]
  unfold ofText
  rw [takeWhile_marked helement, hidPart, hclassPart, String.ofList_toList]

/-- The text tells selectors apart. -/
theorem eq_of_text_eq
    {first second : Selector} (hfirst : first.WellFormed)
    (hsecond : second.WellFormed) (htext : first.text = second.text) :
    first = second := by
  rw [← ofText_text hfirst, ← ofText_text hsecond, htext]

private theorem mem_of_mem_marked
    {marker stop c : Char} {text : List Char}
    (hc : c ∈ marked marker ((partAfter? marker stop text).map String.ofList)) :
    c ∈ text ∨ c = marker := by
  cases hpart : partAfter? marker stop text with
  | none => simp [hpart, marked] at hc
  | some part =>
      simp only [hpart, Option.map_some, marked, String.toList_ofList,
        List.mem_cons] at hc
      rcases hc with rfl | hmem
      · exact Or.inr rfl
      · exact Or.inl (mem_of_mem_partAfter? hpart hmem)

theorem mem_of_mem_text_ofSegment
    {segment : String} {c : Char} (hc : c ∈ (ofSegment segment).text.toList) :
    c ∈ segment.toList ∨ c = '#' ∨ c = '.' := by
  rw [ofSegment_eq_ofText, toList_text] at hc
  simp only [List.mem_append] at hc
  rcases hc with helement | hid | hclass
  · simp only [ofText, String.toList_ofList] at helement
    exact Or.inl (mem_of_mem_cutPath ((List.takeWhile_prefix _).mem helement))
  · exact (mem_of_mem_marked hid).imp mem_of_mem_cutPath Or.inl
  · exact (mem_of_mem_marked hclass).imp mem_of_mem_cutPath Or.inr

theorem not_isBlank_of_mem_text
    {segment : String} (hsegment : ∀ c ∈ segment.toList, isBlank c = false) :
    ∀ c ∈ (ofSegment segment).text.toList, isBlank c = false := by
  intro c hc
  rcases mem_of_mem_text_ofSegment hc with hmem | rfl | rfl
  · exact hsegment c hmem
  · rfl
  · rfl

end Selector

end ThemeSheet

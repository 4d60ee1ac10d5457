import ThemeSheet.Proofs.SelectorText
import ThemeSheet.Load.Build

/-!
# The parts of a segment

The markers of a segment cut it into an element and parts, and each part is an id
or a class by the marker in front of it.  The selector of a segment keeps the first
ids that stand together and the first classes that stand together.  Parts that the
other kind separates from these are lost, so segments that differ in nothing else
have one selector.
-/

namespace ThemeSheet

def isMarker (c : Char) : Bool := c = '#' ∨ c = '.'

def elementPart (text : List Char) : List Char := text.takeWhile (fun c => !isMarker c)

/-- The markers of a text, each with what follows it up to the next one. -/
def markedParts : List Char → List (Char × List Char)
  | [] => []
  | c :: rest =>
      if isMarker c then (c, elementPart rest) :: markedParts rest else markedParts rest

/-- The ids of a segment for the marker `#`, and the classes for `.`. -/
def partsAfter (marker : Char) (text : List Char) : List (List Char) :=
  ((markedParts text).filter (·.1 = marker)).map (·.2)

/-- The first parts of a kind, up to a part of the other kind. -/
def keptParts (marker : Char) (text : List Char) : List (List Char) :=
  (((markedParts text).dropWhile (·.1 ≠ marker)).takeWhile (·.1 = marker)).map (·.2)

/-- The parts of a kind that stand behind the first ones and a part of the other kind. -/
def lostParts (marker : Char) (text : List Char) : List (List Char) :=
  ((((markedParts text).dropWhile (·.1 ≠ marker)).dropWhile (·.1 = marker)).filter
    (·.1 = marker)).map (·.2)

section Parts

variable {marker stop c : Char} {text other : List Char} {found : Char × List Char}

theorem isMarker_iff : isMarker c = true ↔ c = '#' ∨ c = '.' := decide_eq_true_iff

theorem elementPart_cons (hmarker : ¬isMarker c) (text : List Char) :
    elementPart (c :: text) = c :: elementPart text := by
  simp [elementPart, hmarker]

theorem partsAfter_eq (marker : Char) (text : List Char) :
    partsAfter marker text = keptParts marker text ++ lostParts marker text := by
  have hfilter : (markedParts text).filter (·.1 = marker) =
      ((markedParts text).dropWhile (·.1 ≠ marker)).filter (·.1 = marker) := by
    induction markedParts text with
    | nil => rfl
    | cons first row ih => by_cases hfirst : first.1 = marker <;> simp [hfirst, ih]
  rw [partsAfter, hfilter, keptParts, lostParts, ← List.map_append]
  congr 1
  induction (markedParts text).dropWhile (·.1 ≠ marker) with
  | nil => rfl
  | cons first row ih => by_cases hfirst : first.1 = marker <;> simp [hfirst, ih]

theorem lostParts_eq_nil_of_keptParts_eq_nil (hkept : keptParts marker text = []) :
    lostParts marker text = [] := by
  cases hrow : (markedParts text).dropWhile (·.1 ≠ marker) with
  | nil => rw [lostParts, hrow]; rfl
  | cons first row =>
      have hfirst := List.head_dropWhile_not (fun found : Char × List Char => found.1 ≠ marker)
        (hrow ▸ List.cons_ne_nil first row)
      simp only [hrow, List.head_cons, decide_eq_false_iff_not, not_not] at hfirst
      rw [keptParts, hrow] at hkept
      simp [hfirst] at hkept

theorem lostParts_eq_nil (hsingle : (partsAfter marker text).length ≤ 1) :
    lostParts marker text = [] := by
  rw [partsAfter_eq, List.length_append] at hsingle
  by_cases hkept : keptParts marker text = []
  · exact lostParts_eq_nil_of_keptParts_eq_nil hkept
  · have hpos := List.length_pos_iff.mpr hkept
    exact List.eq_nil_of_length_eq_zero (by omega)

theorem not_isMarker_of_mem_elementPart (hc : c ∈ elementPart text) : isMarker c = false := by
  simpa using List.mem_takeWhile_imp hc

theorem not_isMarker_of_mem_markedParts (hfound : found ∈ markedParts text)
    (hc : c ∈ found.2) : isMarker c = false := by
  fun_induction markedParts text with
  | case1 => cases hfound
  | case2 first rest hfirst ih =>
      rcases List.mem_cons.mp hfound with rfl | hrest
      · exact not_isMarker_of_mem_elementPart hc
      · exact ih hrest
  | case3 first rest hfirst ih => exact ih hfound

section Kinds

variable (hkinds : ∀ c, isMarker c = true ↔ c = marker ∨ c = stop) (hne : marker ≠ stop)

include hkinds hne

/-- What stands in front of a part of the other kind are the parts of one kind with
the marker between them. -/
theorem takeWhile_ne_eq_intercalate (text : List Char) :
    text.takeWhile (· ≠ stop) =
      [marker].intercalate
        (elementPart text ::
          ((markedParts text).takeWhile (·.1 = marker)).map (·.2)) := by
  induction text with
  | nil => rfl
  | cons c rest ih =>
      by_cases hmarker : isMarker c
      · rcases (hkinds c).mp hmarker with rfl | rfl
        · rw [List.takeWhile_cons, if_pos (by simpa using hne), ih]
          simp [elementPart, markedParts, hmarker, List.intercalate_cons_cons]
        · simp [elementPart, markedParts, hmarker, Ne.symm hne]
      · have hstop : c ≠ stop := fun heq => hmarker ((hkinds c).mpr (.inr heq))
        rw [List.takeWhile_cons, if_pos (by simpa using hstop), ih,
          elementPart_cons hmarker, markedParts, if_neg hmarker]
        cases ((markedParts rest).takeWhile (·.1 = marker)).map (·.2) <;> simp

theorem partAfter?_eq_intercalate (text : List Char) :
    partAfter? marker stop text =
      if keptParts marker text = [] then none
      else some ([marker].intercalate (keptParts marker text)) := by
  induction text with
  | nil => rfl
  | cons c rest ih =>
      by_cases hfirst : c = marker
      · subst hfirst
        have hmarker := (hkinds c).mpr (.inl rfl)
        have hkept : keptParts c (c :: rest) =
            elementPart rest :: ((markedParts rest).takeWhile (·.1 = c)).map (·.2) := by
          simp [keptParts, markedParts, hmarker]
        rw [hkept, if_neg (List.cons_ne_nil _ _), ← takeWhile_ne_eq_intercalate hkinds hne]
        simp [partAfter?]
      · have hkept : keptParts marker (c :: rest) = keptParts marker rest := by
          by_cases hmarker : isMarker c <;> simp [keptParts, markedParts, hmarker, hfirst]
        rw [hkept, ← ih]
        simp [partAfter?, hfirst]

theorem partAfter?_eq_iff :
    partAfter? marker stop text = partAfter? marker stop other ↔
      keptParts marker text = keptParts marker other := by
  have hsplit : ∀ {text : List Char}, keptParts marker text ≠ [] →
      ([marker].intercalate (keptParts marker text)).splitOn marker =
        keptParts marker text := by
    intro text hsome
    refine List.splitOn_intercalate marker ?_ hsome
    intro part hpart hmem
    obtain ⟨found, hfound, rfl⟩ := List.mem_map.mp hpart
    have hmarked : found ∈ markedParts text :=
      (List.dropWhile_suffix _).mem ((List.takeWhile_prefix _).mem hfound)
    have hmarker := (hkinds marker).mpr (.inl rfl)
    rw [not_isMarker_of_mem_markedParts hmarked hmem] at hmarker
    cases hmarker
  rw [partAfter?_eq_intercalate hkinds hne, partAfter?_eq_intercalate hkinds hne]
  constructor
  · intro heq
    split at heq
    next hnone =>
      split at heq
      next hother => rw [hnone, hother]
      next => cases heq
    next hsome =>
      split at heq
      next => cases heq
      next hother =>
        rw [← hsplit hsome, ← hsplit hother, Option.some.inj heq]
  · intro heq
    rw [heq]

end Kinds

end Parts

/-! ## Segments with one selector -/

section Segments

variable {segment other : String} {text : List Char}

theorem cutPath_eq_self (hpath : ¬ [':', ':'] <:+: text) : cutPath text = (text, none) := by
  fun_induction cutPath text with
  | case1 => rfl
  | case2 path => exact absurd ⟨[], path, rfl⟩ hpath
  | case3 first rest _ ih =>
      rw [ih fun hrest => hpath (hrest.trans (List.suffix_cons first rest).isInfix)]

theorem not_isInfix_of_cutPath (hcut : (cutPath text).2 = none) : ¬ [':', ':'] <:+: text := by
  fun_induction cutPath text with
  | case1 => simp
  | case2 path => cases hcut
  | case3 first rest hne ih =>
      rintro ⟨front, back, htext⟩
      cases front with
      | nil =>
          obtain ⟨rfl, rfl⟩ := List.cons.inj htext
          exact hne back rfl rfl
      | cons c front => exact ih hcut ⟨front, back, (List.cons.inj htext).2⟩

namespace Selector

theorem ofText_eq_iff {first second : List Char} :
    ofText first = ofText second ↔
      elementPart first = elementPart second ∧
        keptParts '#' first = keptParts '#' second ∧
        keptParts '.' first = keptParts '.' second := by
  have helement : ∀ text : List Char,
      text.takeWhile (fun c => c ≠ '#' ∧ c ≠ '.') = elementPart text := by
    intro text
    simp [elementPart, isMarker]
  have hmap : ∀ one two : Option (List Char),
      one.map String.ofList = two.map String.ofList ↔ one = two :=
    fun _ _ => (Option.map_injective fun _ _ => String.ofList_inj.mp).eq_iff
  rw [ofText, ofText, mk.injEq, String.ofList_inj, hmap, hmap, helement, helement,
    partAfter?_eq_iff (fun _ => isMarker_iff) (by decide),
    partAfter?_eq_iff (fun _ => isMarker_iff.trans or_comm) (by decide)]

theorem text_ofSegment_eq_iff_ofText
    (hsegment : ¬ [':', ':'] <:+: segment.toList) (hother : ¬ [':', ':'] <:+: other.toList) :
    (ofSegment segment).text = (ofSegment other).text ↔
      ofText segment.toList = ofText other.toList := by
  have hself : ∀ {segment : String}, ¬ [':', ':'] <:+: segment.toList →
      ofSegment segment = ofText segment.toList := by
    intro segment hpath
    rw [ofSegment_eq_ofText, cutPath_eq_self hpath]
  rw [← hself hsegment, ← hself hother]
  constructor
  · exact eq_of_text_eq (wellFormed_ofSegment segment) (wellFormed_ofSegment other)
  · exact congrArg text

end Selector

/-- Segments have one selector exactly if they have the same element, the same first
ids and the same first classes.  If no id and no class is lost, as where there is at
most one of each, they are the same altogether. -/
theorem text_ofSegment_eq_iff
    (hsegment : ¬ [':', ':'] <:+: segment.toList) (hother : ¬ [':', ':'] <:+: other.toList) :
    ((Selector.ofSegment segment).text = (Selector.ofSegment other).text ↔
      elementPart segment.toList = elementPart other.toList ∧
        ∀ marker ∈ ['#', '.'],
          keptParts marker segment.toList = keptParts marker other.toList) ∧
    ((Selector.ofSegment segment).text = (Selector.ofSegment other).text →
      ∀ marker ∈ ['#', '.'],
        (partsAfter marker segment.toList = partsAfter marker other.toList ↔
          lostParts marker segment.toList = lostParts marker other.toList)) ∧
    ∀ (marker : Char) (text : List Char),
      partsAfter marker text = keptParts marker text ++ lostParts marker text ∧
        ((partsAfter marker text).length ≤ 1 → lostParts marker text = []) := by
  have hkept : (Selector.ofSegment segment).text = (Selector.ofSegment other).text ↔
      elementPart segment.toList = elementPart other.toList ∧
        ∀ marker ∈ ['#', '.'],
          keptParts marker segment.toList = keptParts marker other.toList := by
    rw [Selector.text_ofSegment_eq_iff_ofText hsegment hother, Selector.ofText_eq_iff]
    simp only [List.forall_mem_cons, List.not_mem_nil, false_implies, implies_true, and_true]
  refine ⟨hkept, ?_, fun marker text => ⟨partsAfter_eq marker text, lostParts_eq_nil⟩⟩
  intro htext marker hmarker
  rw [partsAfter_eq, partsAfter_eq, (hkept.mp htext).2 marker hmarker, List.append_right_inj]

/-- A class in front of the id is the same class as one behind it. -/
theorem text_ofSegment_eq_iff_link :
    ¬ [':', ':'] <:+: "A.b#i".toList ∧ ¬ [':', ':'] <:+: "A#i.b".toList ∧
      (Selector.ofSegment "A.b#i").text = (Selector.ofSegment "A#i.b").text ∧
      ∀ marker ∈ ['#', '.'],
        partsAfter marker "A.b#i".toList = partsAfter marker "A#i.b".toList := by
  have hsegment : ¬ [':', ':'] <:+: "A.b#i".toList := not_isInfix_of_cutPath rfl
  have hother : ¬ [':', ':'] <:+: "A#i.b".toList := not_isInfix_of_cutPath rfl
  obtain ⟨hsame, hparts, hlost⟩ := text_ofSegment_eq_iff hsegment hother
  have htext : (Selector.ofSegment "A.b#i").text = (Selector.ofSegment "A#i.b").text :=
    hsame.mpr ⟨rfl, List.forall_mem_cons.mpr ⟨rfl, List.forall_mem_singleton.mpr rfl⟩⟩
  refine ⟨hsegment, hother, htext, fun marker hmarker => (hparts htext marker hmarker).mpr ?_⟩
  simp only [List.mem_cons, List.not_mem_nil, or_false] at hmarker
  rcases hmarker with rfl | rfl <;>
    rw [(hlost _ _).2 (by decide : (partsAfter _ "A.b#i".toList).length ≤ 1),
      (hlost _ _).2 (by decide : (partsAfter _ "A#i.b".toList).length ≤ 1)]

def separatedRules : List Rule :=
  [⟨["Theme"], [⟨"Name", "Plain"⟩]⟩, ⟨["A.a#i.b"], [⟨"x", "1"⟩]⟩,
    ⟨["A#i.a"], [⟨"x", "2"⟩]⟩]

/-- The id separates the class `b` from the class `a`: `b` is lost, and what is
declared for `A#i.a` takes the place of what is declared for `A.a#i.b`. -/
theorem partsAfter_separatedRules :
    ¬ [':', ':'] <:+: "A.a#i.b".toList ∧ ¬ [':', ':'] <:+: "A#i.a".toList ∧
      (Selector.ofSegment "A.a#i.b").text = (Selector.ofSegment "A#i.a").text ∧
      partsAfter '.' "A.a#i.b".toList = [['a'], ['b']] ∧
      partsAfter '.' "A#i.a".toList = [['a']] ∧
      ∃ theme,
        (({} : LoadOptions).build "plain.css" separatedRules).1 = .ok theme ∧
        theme.styles = [⟨0, none, ⟨"A", some "i", some "a"⟩, [⟨"x", "2"⟩]⟩] :=
  ⟨not_isInfix_of_cutPath rfl, not_isInfix_of_cutPath rfl, rfl, rfl, rfl, _, rfl, rfl⟩

end Segments

end ThemeSheet

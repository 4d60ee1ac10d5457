import ThemeSheet.Proofs.SegmentParts

/-!
# The one text of a selector

What a segment reads as has no marker where its text would end too early, and no
path in any part.  These are the selectors that their own text reads back as: an id
may hold hashes and a class points, and a part may be empty or end in a colon, but
none of that moves a marker or makes a path of the colons of two parts.
-/

namespace ThemeSheet

namespace Selector

def parts (selector : Selector) : List String :=
  selector.element :: (selector.id.toList ++ selector.className.toList)

/-- What every selector is like that was read from a segment. -/
structure IsCanonical (selector : Selector) : Prop extends selector.WellFormed where
  noPath : ∀ part ∈ selector.parts, ¬ [':', ':'] <:+: part.toList

end Selector

/-! ## Paths and markers -/

section Texts

variable {marker stop : Char} {pattern front back text part : List Char}

theorem isPrefix_of_isPrefix_append_cons (hmarker : marker ∉ pattern)
    (hpattern : pattern <+: front ++ marker :: back) : pattern <+: front := by
  rcases List.prefix_or_prefix_of_prefix hpattern (List.prefix_append front _) with
    hinside | ⟨rest, rfl⟩
  · exact hinside
  · rw [List.prefix_append_right_inj] at hpattern
    rcases List.prefix_cons_iff.mp hpattern with rfl | ⟨more, rfl, -⟩
    · simp
    · exact absurd (List.mem_append_right front List.mem_cons_self) hmarker

/-- A pattern without the marker does not reach across it. -/
theorem isInfix_of_isInfix_append_cons (hmarker : marker ∉ pattern)
    (hpattern : pattern <:+: front ++ marker :: back) :
    pattern <:+: front ∨ pattern <:+: back := by
  induction front with
  | nil =>
      rcases List.infix_cons_iff.mp hpattern with hprefix | hback
      · have hnil : pattern <+: [] := isPrefix_of_isPrefix_append_cons hmarker hprefix
        exact .inl hnil.isInfix
      · exact .inr hback
  | cons c front ih =>
      rcases List.infix_cons_iff.mp hpattern with hprefix | hrest
      · have hwhole : pattern <+: c :: front :=
          isPrefix_of_isPrefix_append_cons hmarker hprefix
        exact .inl hwhole.isInfix
      · exact (ih hrest).imp (fun hin => hin.trans (List.suffix_cons c front).isInfix) id

theorem cutPath_isPrefix (text : List Char) : (cutPath text).1 <+: text := by
  fun_induction cutPath text with
  | case1 => exact List.nil_prefix
  | case2 path => exact List.nil_prefix
  | case3 first rest hpath ih => exact List.prefix_cons_inj first |>.mpr ih

/-- What is cut off in front of a path holds none. -/
theorem not_isInfix_cutPath (text : List Char) : ¬ [':', ':'] <:+: (cutPath text).1 := by
  fun_induction cutPath text with
  | case1 => simp
  | case2 path => simp
  | case3 first rest hpath ih =>
      intro hinfix
      rcases List.infix_cons_iff.mp hinfix with hprefix | hrest
      · rw [List.cons_prefix_cons] at hprefix
        obtain ⟨path, hrest⟩ := hprefix.2.trans (cutPath_isPrefix rest)
        exact hpath path hprefix.1.symm hrest.symm
      · exact ih hrest

theorem isInfix_of_partAfter? (hpart : partAfter? marker stop text = some part) :
    part <:+: text := by
  unfold partAfter? at hpart
  split at hpart
  next => cases hpart
  next first rest hdrop =>
    rw [Option.some.injEq] at hpart
    have hrest : rest <:+ text :=
      (List.suffix_cons first rest).trans (hdrop ▸ List.dropWhile_suffix _)
    exact hpart ▸ (List.takeWhile_prefix _).isInfix.trans hrest.isInfix

end Texts

/-! ## Selectors that read back -/

namespace Selector

variable {selector : Selector}

theorem isInfix_of_mem_parts_ofText {text : List Char} {part : String}
    (hpart : part ∈ (ofText text).parts) : part.toList <:+: text := by
  simp only [parts, ofText, List.mem_cons, List.mem_append, Option.mem_toList,
    Option.map_eq_some_iff] at hpart
  rcases hpart with rfl | ⟨found, hfound, rfl⟩ | ⟨found, hfound, rfl⟩
  · rw [String.toList_ofList]
    exact (List.takeWhile_prefix _).isInfix
  · rw [String.toList_ofList]
    exact isInfix_of_partAfter? hfound
  · rw [String.toList_ofList]
    exact isInfix_of_partAfter? hfound

theorem isCanonical_ofSegment (segment : String) : (ofSegment segment).IsCanonical where
  toWellFormed := wellFormed_ofSegment segment
  noPath := by
    intro part hpart hpath
    rw [ofSegment_eq_ofText] at hpart
    exact not_isInfix_cutPath _ (hpath.trans (isInfix_of_mem_parts_ofText hpart))

/-- Behind a marker begins another part, so no path reaches into it. -/
theorem not_isInfix_append_marked {marker : Char} {part : Option String} {front : List Char}
    (hmarker : marker ∉ [':', ':']) (hfront : ¬ [':', ':'] <:+: front)
    (hpart : ∀ text ∈ part, ¬ [':', ':'] <:+: text.toList) :
    ¬ [':', ':'] <:+: front ++ marked marker part := by
  cases part with
  | none =>
      rw [marked, List.append_nil]
      exact hfront
  | some text =>
      intro hinfix
      rcases isInfix_of_isInfix_append_cons hmarker hinfix with hin | hin
      · exact hfront hin
      · exact hpart text rfl hin

theorem IsCanonical.not_isInfix_text (hcanonical : selector.IsCanonical) :
    ¬ [':', ':'] <:+: selector.text.toList := by
  have helement : ¬ [':', ':'] <:+: selector.element.toList :=
    hcanonical.noPath _ List.mem_cons_self
  have hid : ∀ id ∈ selector.id, ¬ [':', ':'] <:+: id.toList := by
    intro id hid
    exact hcanonical.noPath id (by simp [parts, Option.mem_def.mp hid])
  have hclass : ∀ name ∈ selector.className, ¬ [':', ':'] <:+: name.toList := by
    intro name hname
    exact hcanonical.noPath name (by simp [parts, Option.mem_def.mp hname])
  rw [toList_text, ← List.append_assoc]
  apply not_isInfix_append_marked (by decide) _ hclass
  exact not_isInfix_append_marked (by decide) helement hid

theorem IsCanonical.ofSegment_text (hcanonical : selector.IsCanonical) :
    ofSegment selector.text = selector := by
  rw [ofSegment_eq_ofText, cutPath_eq_self hcanonical.not_isInfix_text]
  exact ofText_text hcanonical.toWellFormed

end Selector

/-- A selector reads back from its text exactly if it is canonical, and what is read
from a segment is canonical.  So the text tells apart what segments read as, and
reading it changes nothing. -/
theorem ofSegment_text_eq_self_iff :
    (∀ segment : String, (Selector.ofSegment segment).IsCanonical) ∧
    (∀ selector : Selector,
      Selector.ofSegment selector.text = selector ↔ selector.IsCanonical) ∧
    (∀ segment other : String,
      (Selector.ofSegment segment).text = (Selector.ofSegment other).text ↔
        Selector.ofSegment segment = Selector.ofSegment other) ∧
    ∀ segment : String,
      Selector.ofSegment (Selector.ofSegment segment).text = Selector.ofSegment segment := by
  have hread : ∀ segment : String,
      Selector.ofSegment (Selector.ofSegment segment).text = Selector.ofSegment segment :=
    fun segment => (Selector.isCanonical_ofSegment segment).ofSegment_text
  refine ⟨Selector.isCanonical_ofSegment, ?_, ?_, hread⟩
  · intro selector
    constructor
    · intro hself
      rw [← hself]
      exact Selector.isCanonical_ofSegment selector.text
    · exact Selector.IsCanonical.ofSegment_text
  · intro segment other
    constructor
    · intro htext
      rw [← hread segment, htext, hread other]
    · exact congrArg Selector.text

/-- Hashes in the id, points in the class and colons at the ends of parts. -/
example : Selector.ofSegment ".a.b:#i#j::k" = ⟨"", some "i#j", some "a.b:"⟩ ∧
    (Selector.ofSegment ".a.b:#i#j::k").text = "#i#j.a.b:" :=
  ⟨rfl, rfl⟩

end ThemeSheet

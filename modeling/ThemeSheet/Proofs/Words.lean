import ThemeSheet.Selector
import Mathlib.Data.List.TakeWhile

/-!
# Words and the segments of a selector

Words are what stands between blanks, so they hold none.  A text that is
trimmed and not empty has at least one of them.
-/

namespace ThemeSheet

/-- The pieces of a split hold what does not split, and nothing else. -/
theorem exists_mem_splitOnP_iff {α : Type} {p : α → Bool} {text : List α} {c : α} :
    (∃ piece ∈ text.splitOnP p, c ∈ piece) ↔ c ∈ text ∧ p c = false := by
  induction text with
  | nil => simp [List.splitOnP_nil]
  | cons head rest ih =>
      obtain ⟨first, others, hsplit⟩ :=
        List.exists_cons_of_ne_nil (List.splitOnP_ne_nil p rest)
      rw [hsplit] at ih
      simp only [List.mem_cons, exists_eq_or_imp] at ih
      rw [List.splitOnP_cons_eq_if_modifyHead, hsplit]
      cases hhead : p head with
      | true =>
          simp only [if_true, List.mem_cons, exists_eq_or_imp, List.not_mem_nil, ih, false_or]
          constructor
          · rintro ⟨hrest, hc⟩
            exact ⟨.inr hrest, hc⟩
          · rintro ⟨rfl | hrest, hc⟩
            · rw [hhead] at hc
              cases hc
            · exact ⟨hrest, hc⟩
      | false =>
          simp only [Bool.false_eq_true, if_false, List.modifyHead_cons, List.mem_cons,
            exists_eq_or_imp, or_assoc, ih]
          constructor
          · rintro (rfl | ⟨hrest, hc⟩)
            · exact ⟨.inl rfl, hhead⟩
            · exact ⟨.inr hrest, hc⟩
          · rintro ⟨rfl | hrest, hc⟩
            · exact .inl rfl
            · exact .inr ⟨hrest, hc⟩

theorem eq_false_of_mem_splitOnP
    {α : Type} {p : α → Bool} {text piece : List α}
    (hpiece : piece ∈ text.splitOnP p) : ∀ c ∈ piece, p c = false :=
  fun _ hc => (exists_mem_splitOnP_iff.mp ⟨piece, hpiece, hc⟩).2

theorem not_isBlank_of_mem_words
    {text word : List Char} (hword : word ∈ words text) :
    ∀ c ∈ word, isBlank c = false :=
  eq_false_of_mem_splitOnP (List.mem_filter.mp hword).1

@[simp] theorem words_nil : words [] = [] := by simp [words, List.splitOnP_nil]

theorem words_append_cons {c : Char} (hc : isBlank c = true) (front back : List Char) :
    words (front ++ c :: back) = words front ++ words back := by
  unfold words
  rw [List.splitOnP_append_cons front back hc, List.filter_append]

theorem words_cons_of_isBlank {c : Char} (hc : isBlank c = true)
    (text : List Char) : words (c :: text) = words text := by
  simpa using words_append_cons hc [] text

theorem words_eq_singleton {text : List Char} (hne : text ≠ [])
    (htext : ∀ c ∈ text, isBlank c = false) : words text = [text] := by
  rw [words, List.splitOnP_eq_singleton htext]
  simpa using hne

theorem words_cons_ne_nil {c : Char} (hc : isBlank c = false)
    (text : List Char) : words (c :: text) ≠ [] := by
  obtain ⟨first, others, hsplit⟩ :=
    List.exists_cons_of_ne_nil (List.splitOnP_ne_nil isBlank text)
  unfold words
  rw [List.splitOnP_cons_eq_if_modifyHead, if_neg (by simp [hc]), hsplit]
  simp

theorem words_eq_nil_iff (text : List Char) :
    words text = [] ↔ ∀ c ∈ text, isBlank c = true := by
  induction text with
  | nil => simp [words, List.splitOnP_nil]
  | cons c text ih =>
      cases hc : isBlank c with
      | true =>
          rw [words_cons_of_isBlank hc, ih]
          simp [hc]
      | false =>
          simp [words_cons_ne_nil hc, hc]

theorem words_blanks_append {blanks : List Char}
    (hblanks : ∀ c ∈ blanks, isBlank c = true) (text : List Char) :
    words (blanks ++ text) = words text := by
  induction blanks with
  | nil => rfl
  | cons c blanks ih =>
      rw [List.forall_mem_cons] at hblanks
      rw [List.cons_append, words_cons_of_isBlank hblanks.1, ih hblanks.2]

theorem words_append_blanks {blanks : List Char}
    (hblanks : ∀ c ∈ blanks, isBlank c = true) (text : List Char) :
    words (text ++ blanks) = words text := by
  cases blanks with
  | nil => rw [List.append_nil]
  | cons c blanks =>
      rw [List.forall_mem_cons] at hblanks
      rw [words_append_cons hblanks.1, (words_eq_nil_iff blanks).mpr hblanks.2,
        List.append_nil]

/-- Whether a piece is what is left of a text without the blanks around it. -/
structure IsTrimmed (text piece : List Char) : Prop where
  exists_blanks : ∃ front back, text = front ++ (piece ++ back) ∧
    (∀ c ∈ front, isBlank c) ∧ ∀ c ∈ back, isBlank c
  head : ∀ c ∈ piece.head?, isBlank c = false
  last : ∀ c ∈ piece.getLast?, isBlank c = false

theorem isTrimmed_trimBlank (text : List Char) : IsTrimmed text (trimBlank text) := by
  obtain ⟨kept, hkept⟩ : ∃ kept, text.dropWhile isBlank = kept := ⟨_, rfl⟩
  have hback : trimBlank text ++ (kept.reverse.takeWhile isBlank).reverse = kept := by
    rw [trimBlank, hkept, ← List.reverse_append, List.takeWhile_append_dropWhile,
      List.reverse_reverse]
  constructor
  · refine ⟨text.takeWhile isBlank, (kept.reverse.takeWhile isBlank).reverse, ?_, ?_, ?_⟩
    · rw [hback, ← hkept, List.takeWhile_append_dropWhile]
    · exact fun c hc => List.mem_takeWhile_imp hc
    · exact fun c hc => List.mem_takeWhile_imp (List.mem_reverse.mp hc)
  · intro c hc
    have hhead : kept.head? = some c := by
      rw [← hback, List.head?_append, hc, Option.some_or]
    have hnot := List.head?_dropWhile_not isBlank text
    rwa [hkept, hhead] at hnot
  · intro c hc
    rw [trimBlank, List.getLast?_reverse] at hc
    have hnot := List.head?_dropWhile_not isBlank (text.dropWhile isBlank).reverse
    rwa [hc] at hnot

@[simp] theorem words_trimBlank (text : List Char) : words (trimBlank text) = words text := by
  obtain ⟨front, back, htext, hfront, hback⟩ := (isTrimmed_trimBlank text).exists_blanks
  calc
    words (trimBlank text) = words (trimBlank text ++ back) := (words_append_blanks hback _).symm
    _ = words (front ++ (trimBlank text ++ back)) := (words_blanks_append hfront _).symm
    _ = words text := by rw [← htext]

theorem words_trimBlank_ne_nil {text : List Char}
    (htrim : trimBlank text ≠ []) : words (trimBlank text) ≠ [] := by
  intro hwords
  rw [words_eq_nil_iff] at hwords
  have hkept : (text.dropWhile isBlank).reverse.dropWhile isBlank ≠ [] := by
    simpa [trimBlank] using htrim
  have hlast := List.head_dropWhile_not isBlank hkept
  have hblank := hwords _ (List.mem_reverse.mpr (List.head_mem hkept))
  rw [hlast] at hblank
  contradiction

theorem not_isBlank_of_mem_segments
    {selector segment : String} (hsegment : segment ∈ segments selector) :
    ∀ c ∈ segment.toList, isBlank c = false := by
  rcases List.mem_map.mp hsegment with ⟨word, hword, rfl⟩
  rw [String.toList_ofList]
  exact not_isBlank_of_mem_words hword

theorem segments_ofList_trimBlank_ne_nil {text : List Char}
    (htrim : trimBlank text ≠ []) :
    segments (String.ofList (trimBlank text)) ≠ [] := by
  unfold segments
  rw [String.toList_ofList]
  simpa using words_trimBlank_ne_nil htrim

end ThemeSheet

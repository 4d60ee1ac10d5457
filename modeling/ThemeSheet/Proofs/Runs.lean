import ThemeSheet.Proofs.Passages
import Mathlib.Data.List.Forall2

/-!
# Runs of tokens and segments of a selector

Whitespace is told apart twice: by the tokens of a selector, and by the blanks
of the text that they are read as.  A name may hold blanks, since a blank beyond
ASCII is a name character and any blank may be escaped.  So the segments of a
selector are the words of its runs of tokens, and a run is a segment exactly if
no name in it holds a blank.
-/

namespace ThemeSheet

/-- The tokens between the whitespace of a row, without comments. -/
def tokenStretches (row : List Lexeme) : List (List Token) :=
  ((row.map (·.value)).filter (fun token => token ≠ .comment)).splitOnP
    (fun token => token = .whitespace)

/-- The maximal runs of tokens without whitespace. -/
def tokenRuns (row : List Lexeme) : List (List Token) :=
  (tokenStretches row).filter (fun run => !run.isEmpty)

def runText (run : List Token) : List Char :=
  run.flatMap (fun token => token.selectorText?.getD [])

/-- Whether a token adds no blank to a selector. -/
def Token.isUnbroken (token : Token) : Bool :=
  (token.selectorText?.getD []).all (fun c => !isBlank c)

section Words

variable {selector : List Char} {row : List Lexeme} {lexeme : Lexeme}

theorem words_addGap_append (selector text : List Char) :
    words (addGap selector ++ text) = words selector ++ words text := by
  have hspace : isBlank ' ' = true := rfl
  unfold addGap
  split
  next hkept =>
    rcases hkept with hempty | hlast
    · rw [List.isEmpty_iff.mp hempty, words_nil]
      rfl
    · obtain ⟨front, rfl⟩ := List.getLast?_eq_some_iff.mp hlast
      rw [List.append_assoc, List.singleton_append, words_append_cons hspace,
        words_append_cons hspace, words_nil, List.append_nil]
  next => rw [List.append_assoc, List.singleton_append, words_append_cons hspace]

theorem isGap_iff {token : Token} :
    token.isGap ↔ token = .comment ∨ token = .whitespace := by
  cases token <;> simp [Token.isGap]

theorem tokenStretches_of_comment (hvalue : lexeme.value = .comment) (row : List Lexeme) :
    tokenStretches (lexeme :: row) = tokenStretches row := by
  simp [tokenStretches, hvalue]

theorem tokenStretches_of_whitespace (hvalue : lexeme.value = .whitespace)
    (row : List Lexeme) : tokenStretches (lexeme :: row) = [] :: tokenStretches row := by
  simp [tokenStretches, hvalue, List.splitOnP_cons_eq_if_modifyHead]

theorem tokenStretches_of_not_isGap (hgap : ¬lexeme.value.isGap) (row : List Lexeme) :
    tokenStretches (lexeme :: row) = (tokenStretches row).modifyHead (lexeme.value :: ·) := by
  rw [isGap_iff, not_or] at hgap
  simp [tokenStretches, hgap.1, hgap.2, List.splitOnP_cons_eq_if_modifyHead]

theorem addToken_of_not_isGap {token : Token} (hgap : ¬token.isGap)
    (selector : List Char) :
    addToken selector token = selector ++ token.selectorText?.getD [] := by
  cases token with
  | comment | whitespace => exact (hgap rfl).elim
  | _ => rfl

theorem exists_tokenStretches_eq_cons (row : List Lexeme) :
    ∃ first others, tokenStretches row = first :: others :=
  List.exists_cons_of_ne_nil (List.splitOnP_ne_nil _ _)

/-- The words of some stretches, the first of which goes on from a text. -/
def stretchWords (selector : List Char) : List (List Token) → List (List Char)
  | [] => words selector
  | first :: others =>
      words (selector ++ runText first) ++ others.flatMap (fun run => words (runText run))

theorem stretchWords_addGap (selector : List Char) (stretches : List (List Token)) :
    stretchWords (addGap selector) stretches = stretchWords selector ([] :: stretches) := by
  cases stretches with
  | nil => simpa [stretchWords, runText] using words_addGap_append selector []
  | cons first others =>
      rw [stretchWords, stretchWords, words_addGap_append, List.append_assoc,
        List.flatMap_cons]
      simp [runText]

/-- The words of a selector are those of its stretches. -/
theorem words_rowText (selector : List Char) (row : List Lexeme) :
    words (rowText selector row) = stretchWords selector (tokenStretches row) := by
  -- a gap ends the stretch that `selector` belongs to, any other token joins it
  induction row generalizing selector with
  | nil => simp [rowText, tokenStretches, List.splitOnP_nil, stretchWords, runText]
  | cons lexeme row ih =>
      rw [rowText, List.foldl_cons, ← rowText, ih]
      by_cases hgap : lexeme.value.isGap
      · rcases isGap_iff.mp hgap with hvalue | hvalue
        · rw [tokenStretches_of_comment hvalue, hvalue]
          rfl
        · rw [tokenStretches_of_whitespace hvalue, hvalue]
          exact stretchWords_addGap selector _
      · obtain ⟨first, others, hrow⟩ := exists_tokenStretches_eq_cons row
        rw [tokenStretches_of_not_isGap hgap, addToken_of_not_isGap hgap, hrow,
          List.modifyHead_cons, stretchWords, stretchWords, runText, runText,
          List.flatMap_cons, List.append_assoc]

theorem flatMap_filter_words (stretches : List (List Token)) :
    (stretches.filter (fun run => !run.isEmpty)).flatMap (fun run => words (runText run)) =
      stretches.flatMap (fun run => words (runText run)) := by
  induction stretches with
  | nil => rfl
  | cons first others ih =>
      cases first with
      | nil => simpa [runText] using ih
      | cons token run =>
          rw [List.filter_cons_of_pos rfl, List.flatMap_cons, List.flatMap_cons, ih]

theorem words_rowText_nil (row : List Lexeme) :
    words (rowText [] row) = (tokenRuns row).flatMap (fun run => words (runText run)) := by
  obtain ⟨first, others, hrow⟩ := exists_tokenStretches_eq_cons row
  rw [words_rowText, tokenRuns, flatMap_filter_words, hrow, stretchWords, List.nil_append,
    List.flatMap_cons]

end Words

/-! ## Runs that are segments -/

section Runs

variable {row : List Lexeme} {run : List Token} {token : Token}

/-- The runs hold all of a row but its gaps. -/
theorem exists_mem_tokenRuns_iff :
    (∃ run ∈ tokenRuns row, token ∈ run) ↔
      (∃ lexeme ∈ row, lexeme.value = token) ∧ ¬token.isGap := by
  have hruns : (∃ run ∈ tokenRuns row, token ∈ run) ↔
      ∃ run ∈ tokenStretches row, token ∈ run := by
    constructor
    · rintro ⟨run, hrun, htoken⟩
      exact ⟨run, (List.mem_filter.mp hrun).1, htoken⟩
    · rintro ⟨run, hrun, htoken⟩
      have hne := List.ne_nil_of_mem htoken
      exact ⟨run, List.mem_filter.mpr ⟨hrun, by simpa using hne⟩, htoken⟩
  rw [hruns, tokenStretches, exists_mem_splitOnP_iff, List.mem_filter, List.mem_map,
    isGap_iff, not_or, and_assoc]
  simp only [decide_eq_true_eq, decide_eq_false_iff_not, ne_eq]

theorem segments_rowText (row : List Lexeme) :
    segments (String.ofList (trimBlank (rowText [] row))) =
      (tokenRuns row).flatMap (fun run => segments (String.ofList (runText run))) := by
  simp only [segments, String.toList_ofList]
  rw [words_trimBlank, words_rowText_nil, List.map_flatMap]

theorem selectorText_ne_nil (hin : token.isInSelector) (hgap : ¬token.isGap)
    (hnamed : token.isNamed) : token.selectorText?.getD [] ≠ [] := by
  cases token with
  | ident name =>
      change name ≠ []
      simpa [Token.isNamed] using hnamed
  | delim c =>
      change (if c = '.' ∨ c = '*' then some [c] else none).isSome = true at hin
      change (if c = '.' ∨ c = '*' then some [c] else none).getD [] ≠ []
      split at hin
      next hmark => simp [hmark]
      next => cases hin
  | whitespace | comment => exact (hgap rfl).elim
  | idHash | hash | colon => exact List.cons_ne_nil _ _
  | _ => cases hin

theorem runText_ne_nil (hin : ∀ lexeme ∈ row, lexeme.value.isInSelector)
    (hnamed : ∀ lexeme ∈ row, lexeme.value.isNamed) (hrun : run ∈ tokenRuns row) :
    runText run ≠ [] := by
  have hne : run ≠ [] := by simpa using (List.mem_filter.mp hrun).2
  obtain ⟨token, rest, rfl⟩ := List.exists_cons_of_ne_nil hne
  obtain ⟨⟨lexeme, hlexeme, rfl⟩, hgap⟩ :=
    exists_mem_tokenRuns_iff.mp ⟨_, hrun, List.mem_cons_self⟩
  have htext := selectorText_ne_nil (hin lexeme hlexeme) hgap (hnamed lexeme hlexeme)
  rw [runText, List.flatMap_cons]
  exact List.append_ne_nil_of_left_ne_nil htext _

theorem isBlank_of_mem_runText (hunbroken : ∀ lexeme ∈ row, lexeme.value.isUnbroken)
    (hrun : run ∈ tokenRuns row) : ∀ c ∈ runText run, isBlank c = false := by
  intro c hc
  obtain ⟨token, htoken, hc⟩ := List.mem_flatMap.mp hc
  obtain ⟨⟨lexeme, hlexeme, rfl⟩, -⟩ := exists_mem_tokenRuns_iff.mp ⟨run, hrun, htoken⟩
  simpa using List.all_eq_true.mp (hunbroken lexeme hlexeme) c hc

/-- The runs are the segments exactly if no name holds a blank. -/
theorem segments_rowText_eq_iff (hin : ∀ lexeme ∈ row, lexeme.value.isInSelector)
    (hnamed : ∀ lexeme ∈ row, lexeme.value.isNamed) :
    segments (String.ofList (trimBlank (rowText [] row))) =
        (tokenRuns row).map (fun run => String.ofList (runText run)) ↔
      ∀ lexeme ∈ row, lexeme.value.isUnbroken := by
  constructor
  · intro hsegments lexeme hlexeme
    rw [Token.isUnbroken, List.all_eq_true]
    intro c hc
    have hgap : ¬lexeme.value.isGap := by
      intro hgap
      rcases isGap_iff.mp hgap with hvalue | hvalue <;> rw [hvalue] at hc <;> cases hc
    obtain ⟨run, hrun, htoken⟩ :=
      exists_mem_tokenRuns_iff.mpr ⟨⟨lexeme, hlexeme, rfl⟩, hgap⟩
    have hsegment : String.ofList (runText run) ∈
        segments (String.ofList (trimBlank (rowText [] row))) := by
      rw [hsegments]
      exact List.mem_map.mpr ⟨run, hrun, rfl⟩
    have hblank := not_isBlank_of_mem_segments hsegment c
    rw [String.toList_ofList] at hblank
    simpa using hblank (List.mem_flatMap.mpr ⟨lexeme.value, htoken, hc⟩)
  · intro hunbroken
    have hsegment : ∀ run ∈ tokenRuns row,
        segments (String.ofList (runText run)) = [String.ofList (runText run)] := by
      intro run hrun
      rw [segments, String.toList_ofList, words_eq_singleton
        (runText_ne_nil hin hnamed hrun) (isBlank_of_mem_runText hunbroken hrun),
        List.map_singleton]
    rw [segments_rowText, List.flatMap_congr hsegment]
    exact List.flatMap_pure_eq_map _ _

end Runs

/-! ## Stylesheets -/

/-- The segments of a selector are the words of its runs of tokens, in order, and
they are the runs themselves exactly if no name in it holds a blank. -/
theorem segments_of_readStylesheet {css : String} {rules : List Rule}
    (hread : readStylesheet css = .ok rules) :
    (sites css).map (·.rule) = rules ∧
    ∀ site ∈ sites css, site.tokens css <:+: lex css.toList ∧
      List.Forall₂ (fun selector row =>
        (∀ lexeme ∈ row, lexeme.value.isInSelector) ∧
        segments selector =
          (tokenRuns row).flatMap (fun run => segments (String.ofList (runText run))) ∧
        (segments selector = (tokenRuns row).map (fun run => String.ofList (runText run)) ↔
          ∀ lexeme ∈ row, lexeme.value.isUnbroken))
        site.rule.selectors (site.selectorRows css) := by
  refine ⟨map_rule_sites hread, fun site hmem => ?_⟩
  obtain ⟨hselectors, hin⟩ := selectors_of_mem_sites hmem
  refine ⟨(isIn_isInfix_of_mem_sites hmem).2, ?_⟩
  rw [hselectors, List.forall₂_map_left_iff, List.forall₂_same]
  intro row hrow
  have hnamed : ∀ lexeme ∈ row, lexeme.value.isNamed := by
    intro lexeme hlexeme
    exact isNamed_of_mem_lex (mem_of_mem_selectorRows hrow hlexeme)
  exact ⟨hin row hrow, segments_rowText row, segments_rowText_eq_iff (hin row hrow) hnamed⟩

/-- One name that holds a blank beyond ASCII. -/
def spacedSheet : String := "A\u00a0B\x7bx:y\x7d"

def spacedRules : List Rule := [⟨["A\u00a0B"], [⟨"x", "y"⟩]⟩]

theorem lex_spacedSheet :
    lex spacedSheet.toList = plainRule ['A', '\u00a0', 'B'] ['x'] ['y'] := by
  decide +kernel

theorem readRule_spacedSheet :
    readRule (lex spacedSheet.toList) = .ok (⟨["A\u00a0B"], [⟨"x", "y"⟩]⟩, []) := by
  have hselector : trimBlank ['A', '\u00a0', 'B'] ≠ [] := by decide
  have hvalue : ['y'] ≠ [] := by decide
  rw [lex_spacedSheet, ← List.append_nil (plainRule _ _ _),
    readRule_plainRule_append hselector hvalue]
  rfl

theorem begins_spacedSheet : dropGaps (lex spacedSheet.toList) = lex spacedSheet.toList := by
  rw [lex_spacedSheet]
  rfl

theorem readStylesheet_spacedSheet : readStylesheet spacedSheet = .ok spacedRules :=
  (sites_of_readRule begins_spacedSheet readRule_spacedSheet).1

theorem selectorRows_spacedSheet :
    ∃ site ∈ sites spacedSheet, site.rule.selectors = ["A\u00a0B"] ∧
      site.selectorRows spacedSheet =
        [[⟨.ident ['A', '\u00a0', 'B'], ['A', '\u00a0', 'B']⟩]] := by
  rw [(sites_of_readRule begins_spacedSheet readRule_spacedSheet).2]
  exact ⟨_, List.mem_singleton_self _, rfl, by decide +kernel⟩

/-- The selector is one run of tokens and has two segments. -/
theorem segments_spacedSheet :
    readStylesheet spacedSheet = .ok spacedRules ∧
      segments "A\u00a0B" = ["A", "B"] ∧
      ∃ site ∈ sites spacedSheet, site.rule.selectors = ["A\u00a0B"] ∧
        (site.selectorRows spacedSheet).map tokenRuns =
          [[[.ident ['A', '\u00a0', 'B']]]] := by
  obtain ⟨site, hmem, hselectors, hrows⟩ := selectorRows_spacedSheet
  refine ⟨readStylesheet_spacedSheet, by decide +kernel, site, hmem, hselectors, ?_⟩
  rw [hrows]
  decide +kernel

/-- The name is broken, so it is not what the selector falls into. -/
theorem segments_of_readStylesheet_spacedSheet :
    readStylesheet spacedSheet = .ok spacedRules ∧
      segments "A\u00a0B" ≠ ["A\u00a0B"] := by
  obtain ⟨-, hsites⟩ := segments_of_readStylesheet readStylesheet_spacedSheet
  obtain ⟨site, hmem, hselectors, hrows⟩ := selectorRows_spacedSheet
  have hrow := (hsites site hmem).2
  rw [hselectors, hrows, List.forall₂_cons] at hrow
  obtain ⟨⟨-, -, hunbroken⟩, -⟩ := hrow
  refine ⟨readStylesheet_spacedSheet, fun hsegments => ?_⟩
  have hname := hunbroken.mp hsegments _ (List.mem_singleton_self _)
  exact absurd hname (by decide)

end ThemeSheet

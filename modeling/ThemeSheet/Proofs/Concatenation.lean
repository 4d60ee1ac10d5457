import ThemeSheet.Proofs.Lexemes
import ThemeSheet.Proofs.Locality

/-!
# Stylesheets one after the other

An accepted stylesheet is a row of whole rules with gaps behind it.  Text
behind the stylesheet leaves the tokens of the row alone, and unless the gaps
end in an open comment, it is read as if the row was not there.
-/

namespace ThemeSheet

/-- The tokens of an accepted text, and those of the text with more behind it. -/
theorem exists_ruleRow_of_readRules_lex {text : List Char} {rules : List Rule}
    (hread : readRules (lex text) = .ok rules) :
    ∃ row gaps, RuleRow row rules ∧ (∀ gap ∈ gaps, gap.value.isGap) ∧
      lex text = row ++ gaps ∧
      ∀ more, lex (text ++ more) = row ++ lex (Span.sources gaps ++ more) := by
  obtain ⟨row, gaps, hlex, hrow, hgaps⟩ := exists_ruleRow_of_readRules hread
  refine ⟨row, gaps, hrow, hgaps, hlex, fun more => ?_⟩
  rcases hrow.eq_nil_or_closing with rfl | ⟨front, closing, rfl, hclosing⟩
  · rw [eq_sources_append hlex]
    rfl
  · rw [List.append_assoc, List.singleton_append] at hlex
    rw [lex_append_of_mark hlex (mark?_of_closing hclosing), List.append_assoc,
      List.singleton_append]

theorem readRules_lex_append {text : List Char} {rules : List Rule}
    (hread : readRules (lex text) = .ok rules) (hclosed : endsInComment text = false)
    (more : List Char) :
    readRules (lex (text ++ more)) = (readRules (lex more)).map (rules ++ ·) := by
  obtain ⟨row, gaps, hrow, hgaps, hlex, hmore⟩ := exists_ruleRow_of_readRules_lex hread
  have hlast : ∀ gap, gaps.getLast? = some gap → isOpenComment gap = false := by
    intro gap hgap
    rw [endsInComment, hlex, List.getLast?_append, hgap] at hclosed
    exact hclosed
  calc
    readRules (lex (text ++ more)) =
        (readRules (lex (Span.sources gaps ++ more))).map (rules ++ ·) := by
          rw [hmore, hrow.readRules_append]
    _ = (readRules (lex more)).map (rules ++ ·) := by
      rw [readRules_congr (dropGaps_lex_closed_gaps (lex_sources hlex) hgaps hlast more)]

/-- What stands behind an accepted stylesheet is read as if it stood alone. -/
theorem readStylesheet_append {css : String} {rules : List Rule}
    (hread : readStylesheet css = .ok rules)
    (hclosed : endsInComment css.toList = false) (more : String) :
    (∀ others, readStylesheet more = .ok others →
      readStylesheet (css ++ more) = .ok (rules ++ others)) ∧
    (∀ fault, readStylesheet more = .error fault →
      ∃ located, readStylesheet (css ++ more) = .error located ∧
        located.cause = fault.cause ∧ located.message = fault.message) := by
  have happend := readRules_lex_append (readStylesheet_eq_ok_iff.mp hread) hclosed
    more.toList
  constructor
  · intro others hothers
    rw [readStylesheet_eq_ok_iff] at hothers ⊢
    rw [String.toList_append, happend, hothers]
    rfl
  · intro fault hfault
    unfold readStylesheet at hfault ⊢
    rw [String.toList_append, happend]
    cases hmore : readRules (lex more.toList) with
    | ok others =>
        rw [hmore] at hfault
        cases hfault
    | error refusal =>
        rw [hmore] at hfault
        cases hfault
        exact ⟨_, rfl, rfl, rfl⟩

def commentedSheet : String := "A\x7bb:c\x7d/**/"

def commentedRules : List Rule := [⟨["A"], [⟨"b", "c"⟩]⟩]

theorem lex_commentedSheet :
    lex commentedSheet.toList =
      plainRule ['A'] ['b'] ['c'] ++ [⟨.comment, ['/', '*', '*', '/']⟩] := by
  decide +kernel

theorem readStylesheet_commentedSheet :
    readStylesheet commentedSheet = .ok commentedRules := by
  rw [readStylesheet_eq_ok_iff, lex_commentedSheet]
  exact readRules_plainRule_append (by decide) (by decide) (readRules_of_gaps rfl)

theorem readStylesheet_append_commentedSheet :
    readStylesheet (commentedSheet ++ commentedSheet) =
        .ok (commentedRules ++ commentedRules) ∧
      ∃ located, readStylesheet (commentedSheet ++ "A") = .error located ∧
        located.message = "Expected '\x7b' after selector" := by
  have hclosed : endsInComment commentedSheet.toList = false := by
    rw [endsInComment, lex_commentedSheet]
    rfl
  have hrefused : readStylesheet "A" =
      .error ⟨.expectedBlock, Fault.locate ['A'] []⟩ := by
    have hlex : dropGaps (lex "A".toList) = [⟨.ident ['A'], ['A']⟩] := by decide +kernel
    rw [readStylesheet, readRules_of_block hlex (List.cons_ne_nil _ _)]
    rfl
  have hfollowed := readStylesheet_append readStylesheet_commentedSheet hclosed
  obtain ⟨located, hlocated, -, hmessage⟩ := (hfollowed "A").2 _ hrefused
  exact ⟨(hfollowed commentedSheet).1 _ readStylesheet_commentedSheet,
    located, hlocated, hmessage⟩

end ThemeSheet

import ThemeSheet.Reader.Basic
import ThemeSheet.Rule.Stylesheet

/-!
# Stylesheets read by parts

A stylesheet is a row of rules, and each rule is read by the readers of its parts: one for
the selectors, one for the block, one for each value and one for each group of a value.
The texts of groups and blocks have to end in what closes them: a reader that stops at the
end of the text has not seen it.
-/

namespace ThemeSheet

namespace Reader

/-- The lexemes from a place up to where the reader stands. -/
def sliceFrom (reader : Reader) (start : List Lexeme) : List Lexeme :=
  start.take (start.length - reader.rest.length)

/-- Whether nothing but what closes a bracket was read since a place. -/
def closedBy (reader : Reader) (contentEnd : List Lexeme) (bracket : Bracket) : Bool :=
  Span.sources (reader.sliceFrom contentEnd) = [bracket.closing]

def finishSelector (reader : Reader) (selector : List Char) (mark : List Lexeme) :
    Except Halt String :=
  (closeSelector selector mark).mapError
    (fun refusal => ⟨.refused refusal.cause, refusal.rest, reader.rest⟩)

def selectors (selector : List Char) (reader : Reader) :
    Except Halt (List String × Reader) :=
  match _hnext : reader.nextPastComments with
  | (none, after) =>
      (after.finishSelector selector after.rest).map (fun last => ([last], after))
  | (some lexeme, after) =>
      match lexeme.value with
      | .whitespace => selectors (addGap selector) after
      | .comma =>
          match after.finishSelector selector reader.rest with
          | .error halt => .error halt
          | .ok closed =>
              (selectors [] after).map (fun (others, left) => (closed :: others, left))
      | token =>
          match token.selectorText? with
          | some text => selectors (selector ++ text) after
          | none => after.refuse (.unexpectedInSelector token) reader.rest
termination_by reader.rest.length
decreasing_by all_goals exact length_lt_of_nextPastComments _hnext

/-- Reads the rest of a component, whose first lexeme is the one at the mark. -/
def endComponent (property : List Char) (mark : List Lexeme) (opens : Option Bracket)
    (reader : Reader) : Except Halt Reader :=
  match opens with
  | none => .ok reader
  | some bracket => do
      let (contentEnd, after) ← nested toEnd bracket reader
      if after.closedBy contentEnd bracket then return after
      else after.refuse (.unclosedGroup property bracket) mark

theorem isSuffix_of_endComponent {property : List Char} {mark : List Lexeme}
    {opens : Option Bracket} {reader after : Reader}
    (hread : reader.endComponent property mark opens = .ok after) :
    after.rest <:+ reader.rest := by
  unfold endComponent at hread
  split at hread
  next =>
    cases hread
    exact List.suffix_rfl
  next bracket =>
    obtain ⟨⟨contentEnd, behind⟩, hbehind, hclosed⟩ := exists_of_bind_eq_ok hread
    simp only at hclosed
    split at hclosed
    next =>
      cases hclosed
      exact advances_toEnd.nested bracket _ _ _ hbehind
    next => cases hclosed

/-- Reads the components of a value.  `spaced` tells whether whitespace was read since the
last of them. -/
def value (property : List Char) (spaced : Bool) (reader : Reader) :
    Except Halt (List Component × Reader) :=
  match _hnext : reader.next with
  | (none, after) => .ok ([], after)
  | (some lexeme, after) =>
      if lexeme.value.isGap then
        value property (spaced || lexeme.value = .whitespace) after
      else if lexeme.value.isStray then
        after.refuse (.unexpectedInValue property lexeme.value) reader.rest
      else
        match _hend : after.endComponent property reader.rest lexeme.value.opens? with
        | .error halt => .error halt
        | .ok behind =>
            (value property false behind).map (fun (others, left) =>
              (⟨spaced, behind.sliceFrom reader.rest⟩ :: others, left))
termination_by reader.rest.length
decreasing_by
  · exact length_lt_of_next _hnext
  · exact Nat.lt_of_le_of_lt (isSuffix_of_endComponent _hend).length_le
      (length_lt_of_next _hnext)

theorem advances_value (property : List Char) (spaced : Bool) :
    Advances (value property spaced) := by
  intro reader components left hread
  fun_induction value property spaced reader generalizing components with
  | case1 spaced reader after hnext =>
      cases hread
      rw [settled_of_next_eq_none hnext]
      exact reader.settled_isSuffix
  | case2 spaced reader lexeme after hnext hgap ih =>
      exact (ih components hread).trans (isSuffix_of_next hnext)
  | case3 => cases hread
  | case4 => cases hread
  | case5 spaced reader lexeme after hnext hgap hstray behind hend ih =>
      obtain ⟨⟨others, rest⟩, hrest, heq⟩ := exists_of_map_eq_ok hread
      cases heq
      exact ((ih others hrest).trans (isSuffix_of_endComponent hend)).trans
        (isSuffix_of_next hnext)

/-- Whether a colon comes next, and the reader behind what comes. -/
def expectColon (reader : Reader) : Bool × Reader :=
  (reader.nextPastGaps.1.any (fun lexeme => lexeme.value = .colon), reader.nextPastGaps.2)

theorem expectColon_isSuffix (reader : Reader) : reader.expectColon.2.rest <:+ reader.rest :=
  reader.skipGaps.next_isSuffix.trans reader.skipGaps_isSuffix

def declarations (reader : Reader) : Except Halt (List Declaration × Reader) :=
  if reader.skipGaps.isExhausted then .ok ([], reader.skipGaps)
  else
    match _hname : reader.skipGaps.nextPastGaps with
    | (none, after) => .error ⟨.endOfInput, after.rest, after.rest⟩
    | (some lexeme, after) =>
        match lexeme.value with
        | .semicolon => declarations after
        | .ident name =>
            if after.expectColon.1 then
              match _hvalue :
                  untilAfter (value name false) [.semicolon] after.expectColon.2 with
              | .error halt => .error halt
              | .ok (components, left) =>
                  if (valueText components).isEmpty then
                    left.refuse (.missingValue name) reader.skipGaps.rest
                  else
                    (declarations left).map (fun (others, last) =>
                      (Declaration.ofChars name (valueText components) :: others, last))
            else after.expectColon.2.refuse (.expectedColon name) after.rest
        | token => after.refuse (.invalidPropertyName token) reader.skipGaps.rest
termination_by reader.rest.length
decreasing_by
  all_goals
    have hafter := length_lt_of_nextPastGaps _hname
    have hgaps := reader.skipGaps_isSuffix.length_le
  · omega
  · have hcolon := after.expectColon_isSuffix.length_le
    have hvalue := ((advances_value name false).untilAfter [.semicolon] _ _ _ _hvalue).length_le
    omega

/-- Reads a block up to its end, and answers with that place too. -/
def block (reader : Reader) : Except Halt ((List Declaration × List Lexeme) × Reader) := do
  let (declarations, after) ← reader.declarations
  return ((declarations, after.skipGaps.rest), after.skipGaps)

theorem advances_selectors (selector : List Char) : Advances (selectors selector) := by
  intro reader strings left hread
  fun_induction selectors selector reader generalizing strings with
  | case1 selector reader after hnext =>
      obtain ⟨last, -, heq⟩ := exists_of_map_eq_ok hread
      cases heq
      rw [settled_of_next_eq_none hnext]
      exact reader.skipComments.settled_isSuffix.trans reader.skipComments_isSuffix
  | case2 selector reader lexeme after hnext hvalue ih =>
      exact (ih strings hread).trans (isSuffix_of_nextPastComments hnext)
  | case4 selector reader lexeme after hnext hvalue closed hclosed ih =>
      obtain ⟨⟨others, rest⟩, hrest, heq⟩ := exists_of_map_eq_ok hread
      cases heq
      exact (ih others hrest).trans (isSuffix_of_nextPastComments hnext)
  | case5 selector reader lexeme after hnext _ _ text htext ih =>
      exact (ih strings hread).trans (isSuffix_of_nextPastComments hnext)
  | case3 | case6 => cases hread

theorem advances_declarations : Advances declarations := by
  intro reader found left hread
  fun_induction declarations reader generalizing found with
  | case1 reader hexhausted =>
      cases hread
      exact reader.skipGaps_isSuffix
  | case3 reader hexhausted lexeme after hname hvalue ih =>
      have hafter := (isSuffix_of_nextPastGaps hname).trans reader.skipGaps_isSuffix
      exact (ih found hread).trans hafter
  | case6 reader hexhausted lexeme after hname name hident hcolon components rest hvalue
      hnonempty ih =>
      obtain ⟨⟨others, last⟩, hothers, heq⟩ := exists_of_map_eq_ok hread
      cases heq
      have hafter := (isSuffix_of_nextPastGaps hname).trans reader.skipGaps_isSuffix
      have hrest := (advances_value name false).untilAfter [.semicolon] _ _ _ hvalue
      have hbehind := after.expectColon_isSuffix
      exact (((ih others hothers).trans hrest).trans hbehind).trans hafter
  | case2 | case4 | case5 | case7 | case8 => cases hread

theorem advances_block : Advances block := by
  intro reader found left hread
  obtain ⟨⟨others, after⟩, hafter, heq⟩ := exists_of_bind_eq_ok hread
  cases heq
  exact after.skipGaps_isSuffix.trans (advances_declarations _ _ _ hafter)

def rule (reader : Reader) : Except Halt (Rule × Reader) := do
  let (selectors, header) ← untilBefore (selectors []) [.blockOpening] reader
  match header.nextPastGaps with
  | (some ⟨.opening .curly, _⟩, inside) => do
      let ((declarations, contentEnd), after) ← nested block .curly inside
      if after.closedBy contentEnd .curly then return (⟨selectors, declarations⟩, after)
      else after.refuse .unterminatedBlock header.rest
  | (_, after) => after.refuse .expectedBlock header.rest

theorem length_lt_of_rule {reader after : Reader} {rule : Rule}
    (hread : reader.rule = .ok (rule, after)) : after.rest.length < reader.rest.length := by
  obtain ⟨⟨selectors, header⟩, hheader, hblock⟩ := exists_of_bind_eq_ok hread
  have hselectors := ((advances_selectors []).untilBefore [.blockOpening] _ _ _ hheader).length_le
  simp only at hblock
  split at hblock
  next source inside hinside =>
    obtain ⟨⟨⟨declarations, contentEnd⟩, behind⟩, hbehind, hclosed⟩ := exists_of_bind_eq_ok hblock
    have hnested := (advances_block.nested .curly _ _ _ hbehind).length_le
    have hbrace := length_lt_of_nextPastGaps hinside
    simp only at hclosed
    split at hclosed
    next =>
      cases hclosed
      omega
    next => cases hclosed
  next => cases hblock

/-- Reads the rules up to the end of the text. -/
def rules (reader : Reader) : Except Halt (List Rule) :=
  if reader.skipGaps.isExhausted then .ok []
  else
    match _hrule : reader.skipGaps.rule with
    | .error halt => .error halt
    | .ok (rule, after) => (rules after).map (rule :: ·)
termination_by reader.rest.length
decreasing_by
  have hgaps := reader.skipGaps_isSuffix.length_le
  exact Nat.lt_of_lt_of_le (length_lt_of_rule _hrule) hgaps

end Reader

/-- Reads a stylesheet by the readers of its parts. -/
def readByParts (css : String) : Except Halt (List Rule) :=
  Reader.rules ⟨lex css.toList, [], none⟩

/-- What is reported of a halt. -/
def Halt.report (css : String) (halt : Halt) : String × Location :=
  (halt.cause.message, Fault.locate css.toList halt.mark)

end ThemeSheet

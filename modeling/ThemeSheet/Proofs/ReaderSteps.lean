import ThemeSheet.Proofs.Exhaustion
import ThemeSheet.Proofs.Faults

/-!
# Steps of a reader

What a reader does next can be told from the tokens in front of it.  Inside of a group it
goes on to what closes the group, if anything does, so a group that was not seen to its end
is one that the text does not close.  Each way in which the loops over selectors, values and
declarations go on is one equation.
-/

namespace ThemeSheet

/-! ## Groups inside of groups -/

section Groups

variable {bracket : Bracket} {lexeme : Lexeme} {lexemes rest : List Lexeme}

/-- A token that neither opens nor closes the group does not end it. -/
theorem takeGroup_cons_of_alone (hopens : lexeme.value.opens? = none)
    (hcloses : lexeme.value ≠ .closing bracket) :
    takeGroup [bracket] (lexeme :: rest) =
      (takeGroup [bracket] rest).map (fun (group, left) => (lexeme :: group, left)) := by
  have hnest : lexeme.value.nest [bracket] = [bracket] := by
    unfold Token.nest
    split
    next found hfound =>
      rw [if_neg]
      rintro ⟨⟩
      cases hvalue : lexeme.value <;> simp_all [Token.closes?]
    next =>
      rw [hopens]
      rfl
  exact takeGroup_cons_of_nest hnest (List.cons_ne_nil _ _)

/-- A group inside is taken as a whole. -/
theorem takeGroup_cons_of_opens? {inner : Bracket}
    (hopens : lexeme.value.opens? = some inner) :
    takeGroup [bracket] (lexeme :: rest) =
      (takeGroup [inner] rest).bind (fun (group, left) =>
        (takeGroup [bracket] left).map (fun (outer, after) =>
          (lexeme :: (group ++ outer), after))) := by
  rw [takeGroup]
  simp only [nest_of_opens? hopens]
  rw [if_neg (by simp), ← List.singleton_append,
    takeGroup_append_stack (List.cons_ne_nil _ _) (List.cons_ne_nil _ _)]
  cases takeGroup [inner] rest with
  | none => rfl
  | some found =>
      simp only [Option.bind_some, Option.map_map]
      rfl

theorem takeGroup_cons_of_closing (hvalue : lexeme.value = .closing bracket) :
    takeGroup [bracket] (lexeme :: rest) = some ([lexeme], rest) := by
  have hnest : lexeme.value.nest [bracket] = [] := by
    rw [hvalue]
    exact if_pos rfl
  rw [takeGroup]
  simp only [hnest]
  rfl

theorem pastBlock_of_eq_none (htake : takeGroup [bracket] lexemes = none) :
    pastBlock bracket lexemes = [] := by
  rw [pastBlock, htake]

theorem pastBlock_of_eq_some {group : List Lexeme}
    (htake : takeGroup [bracket] lexemes = some (group, rest)) :
    pastBlock bracket lexemes = rest := by
  rw [pastBlock, htake]

theorem pastBlock_cons_of_closing (hvalue : lexeme.value = .closing bracket) :
    pastBlock bracket (lexeme :: rest) = rest := by
  rw [pastBlock_of_eq_some (takeGroup_cons_of_closing hvalue)]

end Groups

/-- Whether what closes a bracket is written as the bracket that closes it. -/
def Spelled (lexemes : List Lexeme) : Prop :=
  ∀ lexeme ∈ lexemes, ∀ bracket, lexeme.value = .closing bracket →
    lexeme.source = [bracket.closing]

theorem Spelled.of_isSuffix {lexemes others : List Lexeme} (hspelled : Spelled others)
    (hsuffix : lexemes <:+ others) : Spelled lexemes :=
  fun lexeme hlexeme => hspelled lexeme (hsuffix.mem hlexeme)

theorem Spelled.of_dropGaps {lexemes rest : List Lexeme} {lexeme : Lexeme}
    (hspelled : Spelled lexemes) (hgaps : dropGaps lexemes = lexeme :: rest) : Spelled rest :=
  hspelled.of_isSuffix (isSuffix_of_dropGaps hgaps)

theorem spelled_lex (text : List Char) : Spelled (lex text) := by
  intro lexeme hlexeme bracket hvalue
  obtain ⟨front, back, hlex⟩ := List.append_of_mem hlexeme
  have hmark : lexeme.value.mark? = some bracket.closing := by
    rw [hvalue]
    cases bracket <;> rfl
  exact source_of_mark? (lex_sources hlex) hmark

namespace Reader

variable {reader after : Reader} {stops : List Delimiter} {bracket : Bracket}
variable {lexeme : Lexeme} {lexemes rest : List Lexeme}

/-! ## In front of some tokens -/

/-- The reader that stands in front of some tokens. -/
def before (stops : List Delimiter) (lexemes : List Lexeme) : Reader := ⟨lexemes, stops, none⟩

theorem rest_settled_none : (⟨rest, stops, none⟩ : Reader).settled.rest = rest := rfl

theorem rest_settled_some :
    (⟨rest, stops, some bracket⟩ : Reader).settled.rest = pastBlock bracket rest :=
  rfl

theorem skipGaps_before (stops : List Delimiter) (lexemes : List Lexeme) :
    (before stops lexemes).skipGaps = before stops (dropGaps lexemes) :=
  rfl

theorem next_eq_some_iff :
    reader.next = (some lexeme, after) ↔
      ∃ rest, reader.settled.rest = lexeme :: rest ∧ reader.stopsAt lexeme.value = false ∧
        after = ⟨rest, reader.stops, lexeme.value.opens?⟩ := by
  unfold next
  split
  next hrest => simp [hrest]
  next first behind hrest =>
    rw [hrest]
    constructor
    · intro hnext
      split at hnext
      next => cases hnext
      next hstops =>
        cases hnext
        exact ⟨behind, rfl, by simpa using hstops, rfl⟩
    · rintro ⟨rest, ⟨⟩, hstops, rfl⟩
      rw [if_neg (by simp [hstops])]

theorem next_before (hstops : (before stops rest).stopsAt lexeme.value = false) :
    (before stops (lexeme :: rest)).next = (some lexeme, ⟨rest, stops, lexeme.value.opens?⟩) :=
  next_eq_some_iff.mpr ⟨rest, rfl, hstops, rfl⟩

theorem next_before_of_stopsAt
    (hstops : ∀ lexeme ∈ lexemes.head?, (before stops lexemes).stopsAt lexeme.value) :
    (before stops lexemes).next = (none, before stops lexemes) := by
  cases lexemes with
  | nil => rfl
  | cons lexeme rest => exact if_pos (hstops lexeme rfl)

theorem nextPastGaps_before (hgaps : dropGaps lexemes = lexeme :: rest)
    (hstops : (before stops rest).stopsAt lexeme.value = false) :
    (before stops lexemes).nextPastGaps = (some lexeme, ⟨rest, stops, lexeme.value.opens?⟩) := by
  have hnext : (before stops lexemes).nextPastGaps = (before stops (dropGaps lexemes)).next :=
    rfl
  rw [hnext, hgaps, next_before hstops]

theorem nextPastComments_before (hcomments : ∀ comment ∈ comments, comment.value = .comment)
    (hlexemes : ∀ lexeme ∈ lexemes.head?, lexeme.value ≠ .comment) :
    (before stops (comments ++ lexemes)).nextPastComments = (before stops lexemes).next := by
  have hdrop : (comments ++ lexemes).dropWhile (fun lexeme => lexeme.value = .comment) =
      lexemes := by
    rw [List.dropWhile_append_of_pos (by simpa using hcomments)]
    cases lexemes with
    | nil => rfl
    | cons lexeme rest => exact List.dropWhile_cons_of_neg (by simpa using hlexemes)
  exact congrArg (fun rest => (before stops rest).next) hdrop

theorem expectColon_before_eq_false
    (hcolon : ∀ source behind, dropGaps rest = ⟨.colon, source⟩ :: behind → False) :
    (before stops rest).expectColon.1 = false := by
  rw [expectColon, Option.any_eq_false]
  intro found hfound
  rcases hnext : (before stops rest).nextPastGaps with ⟨_ | first, after⟩
  · rw [hnext] at hfound
    cases hfound
  · rw [hnext, Option.some.injEq] at hfound
    subst hfound
    obtain ⟨behind, hbehind, -, -⟩ := next_eq_some_iff.mp hnext
    rcases first with ⟨token, source⟩
    rw [decide_eq_false_iff_not]
    rintro rfl
    exact hcolon source behind hbehind

/-- The reader of a stylesheet stops nowhere but at the end of the text. -/
theorem isExhausted_before_eq_false (hgaps : dropGaps lexemes = lexeme :: rest) :
    (before [] lexemes).skipGaps.isExhausted = false := by
  have hfront : dropGaps (dropGaps lexemes) = lexeme :: rest := by
    rw [dropGaps_dropGaps, hgaps]
  have hnext : (before [] (dropGaps lexemes)).nextPastGaps =
      (some lexeme, ⟨rest, [], lexeme.value.opens?⟩) :=
    nextPastGaps_before hfront rfl
  rw [skipGaps_before, isExhausted, leftOver?, hnext]
  rfl

/-! ## Up to the end of a group -/

section Groups

variable {property : List Char} {mark group left : List Lexeme} {entered : Option Bracket}

theorem stopsAt_singleton {delimiter : Delimiter} (hstops : reader.stops = [delimiter])
    (token : Token) : reader.stopsAt token = decide (token = delimiter.token) := by
  simp [stopsAt, hstops]

theorem toStop_of_stop (hnext : reader.next = (none, after)) : reader.toStop = after := by
  rw [toStop]
  split
  next hfound =>
    rw [hnext] at hfound
    cases hfound
    rfl
  next hfound =>
    rw [hnext] at hfound
    cases hfound

/-- Reading on to the end of a group stops in front of what closes it, if anything does. -/
theorem toStop_of_takeGroup (reader : Reader) (hstops : reader.stops = [.closing bracket]) :
    (takeGroup [bracket] reader.settled.rest = none ∧ reader.toStop.rest = []) ∨
      ∃ inner closing left, closing.value = .closing bracket ∧
        takeGroup [bracket] reader.settled.rest = some (inner ++ [closing], left) ∧
        reader.toStop.rest = closing :: left := by
  fun_induction toStop reader with
  | case1 reader after hnext =>
      have hend : ∀ lexeme ∈ reader.settled.rest.head?, lexeme.value = .closing bracket := by
        have hnone : reader.next.1 = none := by rw [hnext]
        simp only [next_fst_eq_none_iff, stopsAt_singleton hstops, decide_eq_true_eq] at hnone
        exact hnone
      rw [settled_of_next_eq_none hnext]
      cases hrest : reader.settled.rest with
      | nil => exact .inl ⟨rfl, rfl⟩
      | cons closing left =>
          have hvalue := hend closing (by rw [hrest]; rfl)
          exact .inr ⟨[], closing, left, hvalue, takeGroup_cons_of_closing hvalue, rfl⟩
  | case2 reader lexeme after hnext ih =>
      obtain ⟨rest, hrest, hlexeme, rfl⟩ := next_eq_some_iff.mp hnext
      have hcloses : lexeme.value ≠ .closing bracket := by
        rw [stopsAt_singleton hstops, decide_eq_false_iff_not] at hlexeme
        exact hlexeme
      rw [hrest]
      have hgroup := ih hstops
      cases hopens : lexeme.value.opens? with
      | none =>
          rw [hopens, rest_settled_none] at hgroup
          rw [takeGroup_cons_of_alone hopens hcloses]
          rcases hgroup with ⟨hnone, hend⟩ | ⟨inner, closing, left, hvalue, htake, hend⟩
          · exact .inl ⟨by rw [hnone, Option.map_none], hend⟩
          · refine .inr ⟨lexeme :: inner, closing, left, hvalue, ?_, hend⟩
            rw [htake, Option.map_some, List.cons_append]
      | some found =>
          -- The group inside is entered now and passed in the next step.
          rw [hopens, rest_settled_some] at hgroup
          rw [takeGroup_cons_of_opens? hopens]
          rcases hinner : takeGroup [found] rest with _ | ⟨group, behind⟩
          · rw [pastBlock_of_eq_none hinner] at hgroup
            rcases hgroup with ⟨-, hend⟩ | ⟨inner, closing, left, -, htake, -⟩
            · exact .inl ⟨rfl, hend⟩
            · cases htake
          · rw [pastBlock_of_eq_some hinner] at hgroup
            simp only [Option.bind_some]
            rcases hgroup with ⟨hnone, hend⟩ | ⟨inner, closing, left, hvalue, htake, hend⟩
            · exact .inl ⟨by rw [hnone, Option.map_none], hend⟩
            · refine .inr ⟨lexeme :: (group ++ inner), closing, left, hvalue, ?_, hend⟩
              rw [htake, Option.map_some, List.cons_append, List.append_assoc]

theorem sliceFrom_append (front : List Lexeme) (reader : Reader) :
    reader.sliceFrom (front ++ reader.rest) = front := by
  rw [sliceFrom, List.length_append, Nat.add_sub_cancel, List.take_left]

theorem closedBy_nil (reader : Reader) (bracket : Bracket) :
    reader.closedBy [] bracket = false := by
  rw [closedBy, sliceFrom, List.take_nil]
  rfl

theorem closedBy_cons {closing : Lexeme} (hsource : closing.source = [bracket.closing]) :
    reader.closedBy (closing :: reader.rest) bracket = true := by
  rw [closedBy, ← List.singleton_append, sliceFrom_append]
  simpa [Span.sources] using hsource

theorem nested_toEnd (bracket : Bracket) (reader : Reader) :
    nested toEnd bracket reader =
      .ok ((⟨reader.rest, [.closing bracket], none⟩ : Reader).toStop.rest,
        before reader.stops
          (pastBlock bracket (⟨reader.rest, [.closing bracket], none⟩ : Reader).toStop.rest)) := by
  rw [nested, exhausts_toEnd.entirely_eq, toEnd]
  simp only [bind, Except.bind, settled_toStop]
  rfl

theorem endComponent_of_eq_some (hspelled : Spelled rest)
    (htake : takeGroup [bracket] rest = some (group, left)) :
    endComponent property mark (some bracket) ⟨rest, stops, entered⟩ =
      .ok (before stops left) := by
  rcases toStop_of_takeGroup ⟨rest, [.closing bracket], none⟩ rfl with
    ⟨hnone, -⟩ | ⟨inner, closing, behind, hvalue, hinner, hend⟩
  · rw [rest_settled_none, htake] at hnone
    cases hnone
  · rw [rest_settled_none, htake, Option.some.injEq, Prod.mk.injEq] at hinner
    obtain ⟨rfl, rfl⟩ := hinner
    have hsource : closing.source = [bracket.closing] := by
      apply hspelled closing _ bracket hvalue
      rw [← append_of_takeGroup htake]
      simp
    have hclosed : (before stops left).closedBy (closing :: left) bracket :=
      closedBy_cons hsource
    simp only [endComponent, nested_toEnd, hend, pastBlock_cons_of_closing hvalue, bind,
      Except.bind, hclosed]
    rfl

theorem endComponent_of_eq_none (htake : takeGroup [bracket] rest = none) :
    endComponent property mark (some bracket) ⟨rest, stops, entered⟩ =
      .error ⟨.refused (.unclosedGroup property bracket), mark, []⟩ := by
  rcases toStop_of_takeGroup ⟨rest, [.closing bracket], none⟩ rfl with
    ⟨-, hend⟩ | ⟨inner, closing, behind, hvalue, hinner, hend⟩
  · simp only [endComponent, nested_toEnd, hend, bind, Except.bind, closedBy_nil]
    rfl
  · rw [rest_settled_none, htake] at hinner
    cases hinner

end Groups

/-! ## The loops -/

section Loops

variable {selector property : List Char} {spaced : Bool}

theorem selectors_of_stop (hnext : reader.nextPastComments = (none, after)) :
    selectors selector reader =
      (after.finishSelector selector after.rest).map (fun last => ([last], after)) := by
  rw [selectors]
  split
  next hfound =>
    rw [hnext] at hfound
    cases hfound
    rfl
  next hfound =>
    rw [hnext] at hfound
    cases hfound

theorem selectors_of_lexeme (hnext : reader.nextPastComments = (some lexeme, after)) :
    selectors selector reader =
      match lexeme.value with
      | .whitespace => selectors (addGap selector) after
      | .comma =>
          after.finishSelector selector reader.rest >>= fun closed =>
            (selectors [] after).map (fun (others, left) => (closed :: others, left))
      | token =>
          match token.selectorText? with
          | some text => selectors (selector ++ text) after
          | none => after.refuse (.unexpectedInSelector token) reader.rest := by
  rw [selectors]
  split
  next hfound =>
    rw [hnext] at hfound
    cases hfound
  next hfound =>
    rw [hnext] at hfound
    cases hfound
    rcases lexeme with ⟨token, source⟩
    cases token with
    | comma =>
        simp only
        split
        next hclosed =>
          rw [hclosed]
          rfl
        next hclosed =>
          rw [hclosed]
          rfl
    | _ => rfl

theorem value_of_stop {spaced : Bool} (hnext : reader.next = (none, after)) :
    value property spaced reader = .ok ([], after) := by
  rw [value]
  split
  next found hfound =>
    rw [hnext] at hfound
    cases hfound
    rfl
  next hfound =>
    rw [hnext] at hfound
    cases hfound

theorem value_of_lexeme {spaced : Bool} (hnext : reader.next = (some lexeme, after)) :
    value property spaced reader =
      if lexeme.value.isGap then
        value property (spaced || lexeme.value = .whitespace) after
      else if lexeme.value.isStray then
        after.refuse (.unexpectedInValue property lexeme.value) reader.rest
      else
        after.endComponent property reader.rest lexeme.value.opens? >>= fun behind =>
          (value property false behind).map (fun (others, left) =>
            (⟨spaced, behind.sliceFrom reader.rest⟩ :: others, left)) := by
  rw [value]
  split
  next hfound =>
    rw [hnext] at hfound
    cases hfound
  next hfound =>
    rw [hnext] at hfound
    cases hfound
    congr 2
    split
    next hend =>
      rw [hend]
      rfl
    next hend =>
      rw [hend]
      rfl

theorem isExhausted_skipGaps_iff :
    reader.skipGaps.isExhausted ↔ reader.skipGaps.nextPastGaps.1 = none := by
  rw [isExhausted, leftOver?, Option.isNone_iff_eq_none]

theorem declarations_of_exhausted (hexhausted : reader.skipGaps.isExhausted) :
    declarations reader = .ok ([], reader.skipGaps) := by
  rw [declarations, if_pos hexhausted]

theorem declarations_of_lexeme
    (hname : reader.skipGaps.nextPastGaps = (some lexeme, after)) :
    declarations reader =
      match lexeme.value with
      | .semicolon => declarations after
      | .ident name =>
          if after.expectColon.1 then
            untilAfter (value name false) [.semicolon] after.expectColon.2 >>=
              fun (components, left) =>
                if (valueText components).isEmpty then
                  left.refuse (.missingValue name) reader.skipGaps.rest
                else
                  (declarations left).map (fun (others, last) =>
                    (Declaration.ofChars name (valueText components) :: others, last))
          else after.expectColon.2.refuse (.expectedColon name) after.rest
      | token => after.refuse (.invalidPropertyName token) reader.skipGaps.rest := by
  have hexhausted : ¬reader.skipGaps.isExhausted := by
    rw [isExhausted_skipGaps_iff, hname]
    exact Option.some_ne_none lexeme
  rw [declarations, if_neg hexhausted]
  split
  next hfound =>
    rw [hname] at hfound
    cases hfound
  next hfound =>
    rw [hname] at hfound
    cases hfound
    rcases lexeme with ⟨token, source⟩
    cases token with
    | ident name =>
        simp only
        congr 1
        split
        next hvalue =>
          rw [hvalue]
          rfl
        next hvalue =>
          rw [hvalue]
          rfl
    | _ => rfl

theorem rules_of_exhausted (hexhausted : reader.skipGaps.isExhausted) :
    rules reader = .ok [] := by
  rw [rules, if_pos hexhausted]

theorem rules_of_rule (hexhausted : reader.skipGaps.isExhausted = false) :
    rules reader =
      reader.skipGaps.rule >>= fun (rule, after) => (rules after).map (rule :: ·) := by
  rw [rules, if_neg (by rw [hexhausted]; exact Bool.false_ne_true)]
  split
  next hrule =>
    rw [hrule]
    rfl
  next hrule =>
    rw [hrule]
    rfl

end Loops

end Reader

end ThemeSheet

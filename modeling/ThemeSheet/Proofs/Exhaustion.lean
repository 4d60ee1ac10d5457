import Mathlib.Data.List.DropRight
import ThemeSheet.Reader.Stylesheet

/-!
# Parts that are read in full

The reader of a part goes on until it is told to stop, whatever it finds on its way.  So
nothing is left of the part that a check of it could find, and the check can be left out.
-/

namespace ThemeSheet

theorem Delimiter.isGap_token (delimiter : Delimiter) : delimiter.token.isGap = false := by
  cases delimiter <;> rfl

theorem dropGaps_dropGaps (lexemes : List Lexeme) :
    dropGaps (dropGaps lexemes) = dropGaps lexemes :=
  List.dropWhile_idempotent _ _

namespace Reader

variable {α : Type} {reader after : Reader} {part : Reader → Except Halt (α × Reader)}

theorem settled_of_entered_eq_none (hentered : reader.entered = none) :
    reader.settled = reader := by
  rw [settled, hentered]

theorem entered_settled (reader : Reader) : reader.settled.entered = none := by
  unfold settled
  split
  next hentered => exact hentered
  next => rfl

theorem settled_settled (reader : Reader) : reader.settled.settled = reader.settled :=
  settled_of_entered_eq_none reader.entered_settled

theorem stops_settled (reader : Reader) : reader.settled.stops = reader.stops := by
  unfold settled
  split <;> rfl

theorem settled_skipGaps (reader : Reader) : reader.skipGaps.settled = reader.skipGaps :=
  settled_of_entered_eq_none reader.entered_settled

theorem settled_toStop (reader : Reader) : reader.toStop.settled = reader.toStop := by
  fun_induction toStop reader with
  | case1 reader after hnext => rw [settled_of_next_eq_none hnext, settled_settled]
  | case2 reader lexeme after hnext ih => exact ih

theorem not_isGap_of_stopsAt {token : Token} (hstops : reader.stopsAt token) :
    token.isGap = false := by
  obtain ⟨delimiter, -, htoken⟩ := List.any_eq_true.mp hstops
  rw [of_decide_eq_true htoken]
  exact delimiter.isGap_token

/-- A reader answers with no token exactly at the end of the text and where it stops. -/
theorem next_fst_eq_none_iff :
    reader.next.1 = none ↔
      ∀ lexeme ∈ reader.settled.rest.head?, reader.stopsAt lexeme.value := by
  unfold next
  split
  next hrest => simp [hrest]
  next lexeme rest hrest =>
    rw [hrest]
    split <;> simp_all

theorem dropGaps_of_next_eq_none (hnext : reader.next.1 = none) :
    dropGaps reader.settled.rest = reader.settled.rest := by
  rw [next_fst_eq_none_iff] at hnext
  cases hrest : reader.settled.rest with
  | nil => rfl
  | cons lexeme rest =>
      have hstops := hnext lexeme (by rw [hrest]; rfl)
      exact dropGaps_cons_of_not_isGap (by rw [not_isGap_of_stopsAt hstops]; decide) rest

theorem skipGaps_of_next_eq_none (hnext : reader.next.1 = none) :
    reader.skipGaps = reader.settled := by
  rw [skipGaps, dropGaps_of_next_eq_none hnext]

/-- Where a reader stops, nothing is left of its part. -/
theorem isExhausted_of_next_eq_none (hnext : reader.next = (none, after)) :
    after.isExhausted := by
  have hsettled : after.settled = after := by
    rw [settled_of_next_eq_none hnext, settled_settled]
  -- A reader that has stopped stops again in the same place.
  have hafter : after.next.1 = none := by
    have hnone : reader.next.1 = none := by rw [hnext]
    rw [next_fst_eq_none_iff] at hnone ⊢
    rw [settled_of_next_eq_none hnext, settled_settled]
    simpa only [stopsAt, stops_settled] using hnone
  rw [isExhausted, leftOver?, nextPastGaps, skipGaps_of_next_eq_none hafter, hsettled, hafter]
  rfl

theorem isExhausted_skipGaps (hexhausted : reader.isExhausted) :
    reader.skipGaps.isExhausted := by
  have hgaps : reader.skipGaps.skipGaps = reader.skipGaps := by
    rw [skipGaps, settled_skipGaps]
    simp only [skipGaps, dropGaps_dropGaps]
  rwa [isExhausted, leftOver?, nextPastGaps, hgaps]

/-- Whether a part is always read in full. -/
def Exhausts (part : Reader → Except Halt (α × Reader)) : Prop :=
  ∀ reader result after, part reader = .ok (result, after) → after.isExhausted

/-- The check of a part that is always read in full never fails. -/
theorem Exhausts.entirely_eq (hpart : Exhausts part) (reader : Reader) :
    entirely part reader = part reader := by
  unfold entirely
  cases hread : part reader with
  | error halt => rfl
  | ok found =>
      obtain ⟨result, after⟩ := found
      have hleft : after.leftOver? = none := by
        simpa [isExhausted] using hpart reader result after hread
      simp only [bind, Except.bind, hleft]
      rfl

/-- The check of a part that reads nothing finds what is there. -/
example : entirely (fun reader => .ok ((), reader)) ⟨[⟨.semicolon, [';']⟩], [], none⟩ =
    .error ⟨.leftOver .semicolon, [⟨.semicolon, [';']⟩], [⟨.semicolon, [';']⟩]⟩ := rfl

/-! ## The parts of a stylesheet -/

theorem isExhausted_toStop (reader : Reader) : reader.toStop.isExhausted := by
  fun_induction toStop reader with
  | case1 reader after hnext => exact isExhausted_of_next_eq_none hnext
  | case2 reader lexeme after hnext ih => exact ih

theorem exhausts_toEnd : Exhausts toEnd := by
  intro reader place after hread
  cases hread
  exact reader.isExhausted_toStop

theorem exhausts_value (property : List Char) (spaced : Bool) :
    Exhausts (value property spaced) := by
  intro reader components after hread
  fun_induction value property spaced reader generalizing components with
  | case1 spaced reader stopped hnext =>
      cases hread
      exact isExhausted_of_next_eq_none hnext
  | case2 spaced reader lexeme behind hnext hgap ih => exact ih components hread
  | case5 spaced reader lexeme behind hnext hgap hstray closed hend ih =>
      obtain ⟨⟨others, last⟩, hothers, heq⟩ := exists_of_map_eq_ok hread
      cases heq
      exact ih others hothers
  | case3 | case4 => cases hread

theorem exhausts_selectors (selector : List Char) : Exhausts (selectors selector) := by
  intro reader strings after hread
  fun_induction selectors selector reader generalizing strings with
  | case1 selector reader stopped hnext =>
      obtain ⟨last, -, heq⟩ := exists_of_map_eq_ok hread
      cases heq
      exact isExhausted_of_next_eq_none hnext
  | case2 selector reader lexeme behind hnext hvalue ih => exact ih strings hread
  | case4 selector reader lexeme behind hnext hvalue closed hclosed ih =>
      obtain ⟨⟨others, last⟩, hothers, heq⟩ := exists_of_map_eq_ok hread
      cases heq
      exact ih others hothers
  | case5 selector reader lexeme behind hnext _ _ text htext ih => exact ih strings hread
  | case3 | case6 => cases hread

theorem exhausts_declarations : Exhausts declarations := by
  intro reader found after hread
  fun_induction declarations reader generalizing found with
  | case1 reader hexhausted =>
      cases hread
      exact hexhausted
  | case3 reader hexhausted lexeme behind hname hvalue ih => exact ih found hread
  | case6 reader hexhausted lexeme behind hname name hident hcolon components rest hvalue
      hnonempty ih =>
      obtain ⟨⟨others, last⟩, hothers, heq⟩ := exists_of_map_eq_ok hread
      cases heq
      exact ih others hothers
  | case2 | case4 | case5 | case7 | case8 => cases hread

theorem exhausts_block : Exhausts block := by
  intro reader found after hread
  obtain ⟨⟨others, last⟩, hlast, heq⟩ := exists_of_bind_eq_ok hread
  cases heq
  exact isExhausted_skipGaps (exhausts_declarations _ _ _ hlast)

end Reader

end ThemeSheet

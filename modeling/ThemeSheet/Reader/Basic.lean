import ThemeSheet.Rule.Outcome
import ThemeSheet.Rule.Value

/-!
# Readers of parts

Each part of a stylesheet, such as a block or a value, is read by a reader of its own.  The
reader stops in front of what ends its part, and it passes as a whole each block or group
that nothing reads.  A part has to be read in full: a reading halts where anything but gaps
is left of it.
-/

namespace ThemeSheet

/-- Why a reading halts: for an error of the stylesheet, or for one of its own. -/
inductive HaltCause where
  | refused (error : SyntaxError)
  /-- A token was asked for where the reader stops. -/
  | endOfInput
  /-- A token is left of a part that was read. -/
  | leftOver (token : Token)
deriving DecidableEq, Repr

def HaltCause.message : HaltCause → String
  | refused error => error.message
  | endOfInput => "Unexpected end of input"
  | leftOver token => "Unexpected " ++ quote token.written

structure Halt where
  cause : HaltCause
  /-- The lexemes from the one that it points at. -/
  mark : List Lexeme
  /-- The lexemes that were not read yet. -/
  unread : List Lexeme
deriving DecidableEq, Repr

/-- What a reader can stop in front of. -/
inductive Delimiter where
  | blockOpening
  | semicolon
  | closing (bracket : Bracket)
deriving DecidableEq, Repr

def Delimiter.token : Delimiter → Token
  | blockOpening => .opening .curly
  | semicolon => .semicolon
  | closing bracket => .closing bracket

structure Reader where
  rest : List Lexeme
  stops : List Delimiter
  /-- The bracket that the last token read has opened. -/
  entered : Option Bracket
deriving DecidableEq, Repr

/-- What follows the block that a bracket has opened. -/
def pastBlock (bracket : Bracket) (lexemes : List Lexeme) : List Lexeme :=
  match takeGroup [bracket] lexemes with
  | none => []
  | some (_, left) => left

theorem pastBlock_isSuffix (bracket : Bracket) (lexemes : List Lexeme) :
    pastBlock bracket lexemes <:+ lexemes := by
  unfold pastBlock
  split
  next => exact List.nil_suffix
  next group left htake => exact ⟨group, append_of_takeGroup htake⟩

namespace Reader

variable {α : Type} {reader after : Reader} {lexeme : Lexeme}

def stopsAt (reader : Reader) (token : Token) : Bool :=
  reader.stops.any (fun stop => token = stop.token)

/-- The reader behind the block that it has entered, if it has. -/
def settled (reader : Reader) : Reader :=
  match reader.entered with
  | none => reader
  | some bracket =>
      { reader with rest := pastBlock bracket reader.rest, entered := none }

/-- The next token, unless the reader stops, and the reader behind it. -/
def next (reader : Reader) : Option Lexeme × Reader :=
  match reader.settled.rest with
  | [] => (none, reader.settled)
  | lexeme :: rest =>
      if reader.stopsAt lexeme.value then (none, reader.settled)
      else (some lexeme, { reader with rest := rest, entered := lexeme.value.opens? })

def skipComments (reader : Reader) : Reader :=
  { reader.settled with
    rest := reader.settled.rest.dropWhile (fun lexeme => lexeme.value = .comment) }

def skipGaps (reader : Reader) : Reader :=
  { reader.settled with rest := dropGaps reader.settled.rest }

def nextPastComments (reader : Reader) : Option Lexeme × Reader := reader.skipComments.next

def nextPastGaps (reader : Reader) : Option Lexeme × Reader := reader.skipGaps.next

def leftOver? (reader : Reader) : Option Lexeme := reader.nextPastGaps.1

def isExhausted (reader : Reader) : Bool := reader.leftOver?.isNone

def refuse (reader : Reader) (error : SyntaxError) (mark : List Lexeme) :
    Except Halt α :=
  .error ⟨.refused error, mark, reader.rest⟩

/-! ## What is read is behind -/

theorem settled_isSuffix (reader : Reader) : reader.settled.rest <:+ reader.rest := by
  unfold settled
  split
  next => exact List.suffix_rfl
  next bracket hentered => exact pastBlock_isSuffix bracket reader.rest

theorem skipGaps_isSuffix (reader : Reader) : reader.skipGaps.rest <:+ reader.rest :=
  (dropGaps_isSuffix reader.settled.rest).trans reader.settled_isSuffix

theorem skipComments_isSuffix (reader : Reader) : reader.skipComments.rest <:+ reader.rest :=
  (List.dropWhile_suffix _).trans reader.settled_isSuffix

theorem settled_of_next_eq_none (hnext : reader.next = (none, after)) :
    after = reader.settled := by
  unfold next at hnext
  split at hnext
  next =>
    cases hnext
    rfl
  next =>
    split at hnext
    next =>
      cases hnext
      rfl
    next => cases hnext

theorem cons_isSuffix_of_next (hnext : reader.next = (some lexeme, after)) :
    lexeme :: after.rest <:+ reader.rest := by
  unfold next at hnext
  split at hnext
  next => cases hnext
  next first rest hrest =>
    split at hnext
    next => cases hnext
    next =>
      cases hnext
      exact hrest ▸ reader.settled_isSuffix

theorem isSuffix_of_next (hnext : reader.next = (some lexeme, after)) :
    after.rest <:+ reader.rest :=
  (List.suffix_cons lexeme after.rest).trans (cons_isSuffix_of_next hnext)

theorem next_isSuffix (reader : Reader) : reader.next.2.rest <:+ reader.rest := by
  rcases hnext : reader.next with ⟨_ | lexeme, after⟩
  · rw [settled_of_next_eq_none hnext]
    exact reader.settled_isSuffix
  · exact isSuffix_of_next hnext

theorem isSuffix_of_nextPastComments (hnext : reader.nextPastComments = (some lexeme, after)) :
    after.rest <:+ reader.rest :=
  (isSuffix_of_next hnext).trans reader.skipComments_isSuffix

theorem isSuffix_of_nextPastGaps (hnext : reader.nextPastGaps = (some lexeme, after)) :
    after.rest <:+ reader.rest :=
  (isSuffix_of_next hnext).trans reader.skipGaps_isSuffix

theorem length_lt_of_next (hnext : reader.next = (some lexeme, after)) :
    after.rest.length < reader.rest.length := by
  have hlength := (cons_isSuffix_of_next hnext).length_le
  rwa [List.length_cons] at hlength

theorem length_lt_of_nextPastComments
    (hnext : reader.nextPastComments = (some lexeme, after)) :
    after.rest.length < reader.rest.length :=
  Nat.lt_of_lt_of_le (length_lt_of_next hnext) reader.skipComments_isSuffix.length_le

theorem length_lt_of_nextPastGaps (hnext : reader.nextPastGaps = (some lexeme, after)) :
    after.rest.length < reader.rest.length :=
  Nat.lt_of_lt_of_le (length_lt_of_next hnext) reader.skipGaps_isSuffix.length_le

/-! ## Parts -/

/-- Reads on to where the reader stops. -/
def toStop (reader : Reader) : Reader :=
  match _hnext : reader.next with
  | (none, after) => after
  | (some _, after) => after.toStop
termination_by reader.rest.length
decreasing_by exact length_lt_of_next _hnext

/-- Reads on to where the reader stops, and answers with that place. -/
def toEnd (reader : Reader) : Except Halt (List Lexeme × Reader) :=
  .ok (reader.toStop.rest, reader.toStop)

variable (part : Reader → Except Halt (α × Reader))

/-- Halts if anything is left of a part. -/
def entirely (reader : Reader) : Except Halt (α × Reader) := do
  let (result, after) ← part reader
  match after.leftOver? with
  | none => return (result, after)
  | some lexeme => .error ⟨.leftOver lexeme.value, after.rest, after.rest⟩

/-- Reads a part that ends in front of a delimiter. -/
def untilBefore (delimiters : List Delimiter) (reader : Reader) :
    Except Halt (α × Reader) := do
  let (result, after) ←
    entirely part { reader with stops := reader.stops ++ delimiters }
  return (result, { reader with rest := after.toStop.rest, entered := none })

/-- Reads a part and the delimiter behind it, unless the reader itself stops there. -/
def untilAfter (delimiters : List Delimiter) (reader : Reader) :
    Except Halt (α × Reader) := do
  let (result, after) ← untilBefore part delimiters reader
  return (result, after.next.2.settled)

/-- Reads the block that the reader has entered, up to and with its closing bracket. -/
def nested (bracket : Bracket) (reader : Reader) : Except Halt (α × Reader) := do
  let (result, after) ← entirely part ⟨reader.rest, [.closing bracket], none⟩
  return (result,
    { reader with rest := pastBlock bracket after.settled.rest, entered := none })

/-- Whether a part leaves only what follows. -/
def Advances (part : Reader → Except Halt (α × Reader)) : Prop :=
  ∀ reader result after, part reader = .ok (result, after) → after.rest <:+ reader.rest

theorem toStop_isSuffix (reader : Reader) : reader.toStop.rest <:+ reader.rest := by
  fun_induction toStop reader with
  | case1 reader after hnext =>
      rw [settled_of_next_eq_none hnext]
      exact reader.settled_isSuffix
  | case2 reader lexeme after hnext ih =>
      exact ih.trans (isSuffix_of_next hnext)

theorem advances_toEnd : Advances toEnd := by
  intro reader place after hread
  cases hread
  exact reader.toStop_isSuffix

section Advances

variable {part} (hpart : Advances part)
include hpart

theorem Advances.entirely : Advances (entirely part) := by
  intro reader result after hread
  obtain ⟨⟨found, behind⟩, hfound, hleft⟩ := exists_of_bind_eq_ok hread
  simp only at hleft
  split at hleft
  next =>
    cases hleft
    exact hpart _ _ _ hfound
  next => cases hleft

theorem Advances.untilBefore (delimiters : List Delimiter) :
    Advances (untilBefore part delimiters) := by
  intro reader result after hread
  obtain ⟨⟨found, behind⟩, hfound, hleft⟩ := exists_of_bind_eq_ok hread
  cases hleft
  have hbehind := hpart.entirely _ _ _ hfound
  exact behind.toStop_isSuffix.trans hbehind

theorem Advances.untilAfter (delimiters : List Delimiter) :
    Advances (untilAfter part delimiters) := by
  intro reader result after hread
  obtain ⟨⟨found, behind⟩, hfound, hleft⟩ := exists_of_bind_eq_ok hread
  cases hleft
  have hbehind := hpart.untilBefore delimiters _ _ _ hfound
  exact (behind.next.2.settled_isSuffix.trans behind.next_isSuffix).trans hbehind

theorem Advances.nested (bracket : Bracket) : Advances (nested part bracket) := by
  intro reader result after hread
  obtain ⟨⟨found, behind⟩, hfound, hleft⟩ := exists_of_bind_eq_ok hread
  cases hleft
  have hbehind := hpart.entirely _ _ _ hfound
  exact ((pastBlock_isSuffix bracket behind.settled.rest).trans behind.settled_isSuffix).trans
    hbehind

end Advances

end Reader

end ThemeSheet

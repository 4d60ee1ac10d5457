import ThemeSheet.Proofs.Lexemes
import ThemeSheet.Rule.Written
import ThemeSheet.Text.Blank

/-!
# Reading tokens that were written

A quoted string is written character by character, and each stands alone: it is
read as what it was written for, whatever follows.  A word is read up to its
end, where no more of a name and no bracket may follow.
-/

namespace ThemeSheet

/-! ## Rows that are read as they were written -/

section Rows

variable {α β : Type} {next : Char → List Char → Option (α × Nat)}
variable {write : β → List Char} {value : β → α} {row : List β}

/-- Where each item is read back before any rest, a row of items is. -/
theorem Span.readWhile_flatMap
    (hitem : ∀ item ∈ row, ∀ rest, ∃ c more, write item = c :: more ∧
      next c (more ++ rest) = some (value item, more.length))
    (rest : List Char) :
    readWhile next (row.flatMap write ++ rest) =
      row.map (fun item => ⟨value item, write item⟩) ++ readWhile next rest := by
  induction row with
  | nil => rfl
  | cons item row ih =>
      rw [List.forall_mem_cons] at hitem
      obtain ⟨c, more, hwrite, hnext⟩ := hitem.1 (row.flatMap write ++ rest)
      rw [List.flatMap_cons, hwrite, List.append_assoc, List.cons_append,
        readWhile_of_some hnext, List.take_left, List.drop_left, ih hitem.2,
        List.map_cons, hwrite]
      rfl

theorem Span.chars_map_some (write : Char → List Char) (text : List Char) :
    chars (text.map (fun c => ⟨some c, write c⟩)) = text := by
  rw [chars, List.filterMap_map]
  exact List.filterMap_some

theorem Span.width_map (write : β → List Char) (value : β → α) (row : List β) :
    width (row.map (fun item => (⟨value item, write item⟩ : Span α))) =
      (row.flatMap write).length := by
  rw [width, sources, List.flatMap_map]

end Rows

/-! ## Quoted strings -/

section Quoted

variable {c : Char} {text : List Char}

/-- The digits of a code below 128 fit in an escape and read back as the code. -/
theorem hexDigits_of_lt {n : Nat} (hn : n < 128) (hzero : n ≠ 0) :
    (hexDigits n).all isHexDigit ∧ (hexDigits n).length ≤ 6 ∧
      hexValue (hexDigits n) = n ∧ hexDigits n ≠ [] := by
  have hall : ∀ n < 128, n ≠ 0 →
      (hexDigits n).all isHexDigit ∧ (hexDigits n).length ≤ 6 ∧
        hexValue (hexDigits n) = n ∧ hexDigits n ≠ [] := by
    decide +kernel
  exact hall n hn hzero

theorem toNat_ne_zero (hnull : c ≠ '\x00') : c.toNat ≠ 0 := by
  intro hcode
  exact hnull (Char.toNat_inj.mp hcode)

theorem escapedChar_toNat (hnull : c ≠ '\x00') : escapedChar c.toNat = c := by
  rw [escapedChar, if_pos ⟨toNat_ne_zero hnull, c.valid⟩, Char.ofNat_toNat]

theorem lt_of_needsHexEscape (hneeds : needsHexEscape c) : c.toNat < 128 := by
  rw [needsHexEscape, Bool.or_eq_true, decide_eq_true_eq, beq_iff_eq] at hneeds
  rcases hneeds with hlt | rfl
  · omega
  · decide

theorem newline_cases (hnewline : isNewline c) : c = '\n' ∨ c = '\r' ∨ c = '\x0c' := by
  simpa [isNewline, or_assoc] using hnewline

theorem needsHexEscape_of_isNewline (hnewline : isNewline c) : needsHexEscape c := by
  rcases newline_cases hnewline with rfl | rfl | rfl <;> decide

theorem not_isHexDigit_of_isNewline (hnewline : isNewline c) : isHexDigit c = false := by
  rcases newline_cases hnewline with rfl | rfl | rfl <;> decide

theorem startsWithNewline_hexDigits {n : Nat} (hn : n < 128) (hzero : n ≠ 0)
    (rest : List Char) : startsWithNewline (hexDigits n ++ rest) = false := by
  obtain ⟨hdigits, -, -, hne⟩ := hexDigits_of_lt hn hzero
  obtain ⟨digit, more, hcons⟩ := List.exists_cons_of_ne_nil hne
  rw [hcons, List.all_cons, Bool.and_eq_true] at hdigits
  rw [hcons, List.cons_append, startsWithNewline, Bool.eq_false_iff]
  intro hnewline
  rw [not_isHexDigit_of_isNewline hnewline] at hdigits
  exact Bool.false_ne_true hdigits.1

theorem readEscape_hexDigits (hneeds : needsHexEscape c) (hnull : c ≠ '\x00')
    (rest : List Char) :
    readEscape (hexDigits c.toNat ++ ' ' :: rest) =
      (c, (hexDigits c.toNat).length + 1) := by
  obtain ⟨hdigits, hlength, hvalue, hne⟩ :=
    hexDigits_of_lt (lt_of_needsHexEscape hneeds) (toNat_ne_zero hnull)
  have htake : ((hexDigits c.toNat ++ ' ' :: rest).take 6).takeWhile isHexDigit =
      hexDigits c.toNat := by
    rw [List.take_append, List.take_of_length_le hlength,
      List.takeWhile_append_of_pos (by simpa using hdigits)]
    cases 6 - (hexDigits c.toNat).length with
    | zero => simp
    | succ more =>
        rw [List.take_succ_cons, List.takeWhile_cons_of_neg (by decide), List.append_nil]
  rw [readEscape.eq_def]
  split
  next hnil => simp at hnil
  next first behind hcons =>
    simp only
    rw [htake, if_neg (by simpa using hne), hvalue, escapedChar_toNat hnull,
      List.drop_left]
    rfl

theorem not_isHexDigit_of_isQuoteMark (hmark : c = '"' ∨ c = '\\') :
    isHexDigit c = false ∧ isNewline c = false := by
  rcases hmark with rfl | rfl <;> decide

theorem readEscape_mark (hmark : c = '"' ∨ c = '\\') (rest : List Char) :
    readEscape (c :: rest) = (c, 1) := by
  obtain ⟨hhex, -⟩ := not_isHexDigit_of_isQuoteMark hmark
  have hvisible : visible c = c := by
    rcases hmark with rfl | rfl <;> rfl
  simp [readEscape, hhex, hvisible]

/-- An escape in a string, in front of anything but a newline. -/
theorem quotedChar_backslash {rest : List Char} {width : Nat}
    (hne : rest ≠ []) (hnewline : startsWithNewline rest = false)
    (hescape : readEscape rest = (c, width)) :
    quotedChar '"' '\\' rest = some (some c, width) := by
  rw [quotedChar, if_neg (by decide), if_pos rfl, if_neg (by simpa using hne),
    if_neg (by simpa using hnewline), hescape]

/-- Each character of a string is read back before any rest. -/
theorem quotedChar_writeStringChar (hnull : c ≠ '\x00') (rest : List Char) :
    ∃ first more, writeStringChar c = first :: more ∧
      quotedChar '"' first (more ++ rest) = some (some c, more.length) := by
  by_cases hmark : c = '"' ∨ c = '\\'
  · refine ⟨'\\', [c], by rw [writeStringChar, if_pos hmark, charEscape], ?_⟩
    obtain ⟨-, hnewline⟩ := not_isHexDigit_of_isQuoteMark hmark
    exact quotedChar_backslash (List.cons_ne_nil _ _) hnewline (readEscape_mark hmark rest)
  · by_cases hneeds : needsHexEscape c
    · refine ⟨'\\', hexDigits c.toNat ++ [' '], ?_, ?_⟩
      · rw [writeStringChar, if_neg hmark, if_neg hnull, if_pos hneeds, hexEscape,
          List.cons_append]
      · have hnewline := startsWithNewline_hexDigits (lt_of_needsHexEscape hneeds)
          (toNat_ne_zero hnull) (' ' :: rest)
        rw [List.append_assoc, List.singleton_append, List.length_append]
        exact quotedChar_backslash (by simp) hnewline (readEscape_hexDigits hneeds hnull rest)
    · refine ⟨c, [], ?_, ?_⟩
      · rw [writeStringChar, if_neg hmark, if_neg hnull, if_neg hneeds]
      · rw [not_or] at hmark
        have hnewline : isNewline c = false :=
          Bool.eq_false_iff.mpr (fun hnewline => hneeds (needsHexEscape_of_isNewline hnewline))
        rw [quotedChar, if_neg (by simp [hmark.1, hnewline]), if_neg hmark.2, visible,
          if_neg hnull]
        rfl

theorem readQuoted_written (hnull : '\x00' ∉ text) (rest : List Char) :
    readQuoted '"' (text.flatMap writeStringChar ++ '"' :: rest) =
      (.quoted text, (text.flatMap writeStringChar).length + 1) := by
  have hchars : ∀ c ∈ text, ∀ behind, ∃ first more, writeStringChar c = first :: more ∧
      quotedChar '"' first (more ++ behind) = some (some c, more.length) := by
    intro c hc
    exact quotedChar_writeStringChar (ne_of_mem_of_not_mem hc hnull)
  have hspans := Span.readWhile_flatMap hchars ('"' :: rest)
  rw [Span.readWhile_of_none rfl, List.append_nil] at hspans
  unfold readQuoted
  simp only [hspans, Span.chars_map_some, Span.width_map, List.drop_left]
  rfl

theorem lex_writeString (hnull : '\x00' ∉ text) (rest : List Char) :
    lex (writeString text ++ rest) = ⟨.quoted text, writeString text⟩ :: lex rest := by
  have hread : Token.read '"' (text.flatMap writeStringChar ++ ['"'] ++ rest) =
      (.quoted text, (text.flatMap writeStringChar ++ ['"']).length) := by
    rw [List.append_assoc, List.singleton_append, List.length_append]
    exact readQuoted_written hnull rest
  exact lex_cons_append hread

end Quoted

/-! ## Words -/

/-- What may stand behind a word: nothing that goes on with it, and no bracket,
which would make it a function. -/
def EndsWord (text : List Char) : Prop :=
  ∀ c ∈ text.head?, isNameChar c = false ∧ c ≠ '\\' ∧ c ≠ '('

section Words

variable {c : Char} {word text rest : List Char}

theorem toNat_lt_of_isWordChar (hword : isWordChar c) : c.toNat < 128 := by
  have hranges : decide ('A'.val ≤ c.val ∧ c.val ≤ 'Z'.val) ||
      ('a'.val ≤ c.val && c.val ≤ 'z'.val) || c == '_' ||
      ('0'.val ≤ c.val && c.val ≤ '9'.val) || c == '-' := hword
  simp only [Bool.or_eq_true, Bool.and_eq_true, decide_eq_true_eq, beq_iff_eq,
    UInt32.le_iff_toNat_le] at hranges
  rcases hranges with (((⟨-, hle⟩ | ⟨-, hle⟩) | rfl) | ⟨-, hle⟩) | rfl
  · exact lt_of_le_of_lt hle (by decide)
  · exact lt_of_le_of_lt hle (by decide)
  · decide
  · exact lt_of_le_of_lt hle (by decide)
  · decide

/-- What holds of the characters of words can be checked one by one. -/
theorem forall_isWordChar {p : Char → Prop}
    (hall : ∀ n < 128, isWordChar (Char.ofNat n) → p (Char.ofNat n)) :
    ∀ c, isWordChar c → p c := by
  intro c hword
  have hp := hall c.toNat (toNat_lt_of_isWordChar hword)
  rw [Char.ofNat_toNat] at hp
  exact hp hword

theorem classes_of_isWordChar : ∀ c, isWordChar c →
    isNameChar c ∧ visible c = c ∧ isBlank c = false :=
  forall_isWordChar (by decide +kernel)

/-- The first character of a word begins no number. -/
theorem classes_of_isWordStart : ∀ c, isWordChar c → isWordStart c →
    isNameStart c ∧ c.isDigit = false ∧ Sign.ofChar? c = none ∧ c ∉ ['-', '.', '\\'] :=
  forall_isWordChar (by decide +kernel)

theorem isWordChar_of_isWordStart (hstart : isWordStart c) : isWordChar c := by
  rw [isWordChar, hstart]
  rfl

theorem not_isSpace_of_not_isBlank (hblank : isBlank c = false) : ¬isSpace c := by
  intro hspace
  simp only [isSpace, Bool.or_eq_true, beq_iff_eq] at hspace
  rcases hspace with (rfl | rfl) | hnewline
  · cases hblank
  · cases hblank
  · rcases newline_cases hnewline with rfl | rfl | rfl <;> cases hblank

theorem readName_of_isWordChar (hword : ∀ c ∈ word, isWordChar c) (hends : EndsWord rest) :
    readName (word ++ rest) = (word, word.length) := by
  have hrest : Span.readWhile nameChar rest = [] := by
    cases rest with
    | nil => rw [Span.readWhile]
    | cons c rest =>
        obtain ⟨hname, hbackslash, -⟩ := hends c rfl
        apply Span.readWhile_of_none
        rw [nameChar, if_neg (by simp [hname]), if_neg (by simp [hbackslash])]
  have hchars : ∀ c ∈ word, ∀ behind, ∃ first more, [c] = first :: more ∧
      nameChar first (more ++ behind) = some (some c, more.length) := by
    intro c hc behind
    obtain ⟨hname, hvisible, -⟩ := classes_of_isWordChar c (hword c hc)
    exact ⟨c, [], rfl, by rw [nameChar, if_pos hname, hvisible]; rfl⟩
  have hspans := Span.readWhile_flatMap hchars rest
  rw [hrest, List.append_nil, List.flatMap_singleton'] at hspans
  rw [readName, hspans, Span.chars_map_some, Span.width_map, List.flatMap_singleton']

theorem readWord_of_isWordChar (hword : ∀ c ∈ word, isWordChar c) (hends : EndsWord rest) :
    readWord (word ++ rest) = (.ident word, word.length) := by
  have hname := readName_of_isWordChar hword hends
  rw [readWord_of_head?_ne, hname]
  rw [hname, List.drop_left]
  intro hbracket
  exact (hends '(' hbracket).2.2 rfl

theorem Word.isWordChar_first (word : Word) : isWordChar word.first :=
  isWordChar_of_isWordStart word.isWordStart_first

theorem Word.isWordChar_of_mem_chars (word : Word) : ∀ c ∈ word.chars, isWordChar c := by
  intro c hc
  rcases List.mem_cons.mp hc with rfl | hrest
  · exact word.isWordChar_first
  · exact List.all_eq_true.mp word.all_isWordChar c hrest

theorem startsName_word (word : Word) (rest : List Char) : startsName (word.chars ++ rest) := by
  obtain ⟨hname, -, -, hmarks⟩ :=
    classes_of_isWordStart _ word.isWordChar_first word.isWordStart_first
  rw [Word.chars, List.cons_append, startsName_cons, hname]
  · rintro heq
    simp [heq] at hmarks
  · rintro heq
    simp [heq] at hmarks

theorem Token.read_word (word : Word) (rest : List Char) :
    Token.read word.first (word.rest ++ rest) = behindFirst (readWord (word.chars ++ rest)) := by
  obtain ⟨-, -, hblank⟩ := classes_of_isWordChar _ word.isWordChar_first
  obtain ⟨-, hdigit, hsign, hmarks⟩ :=
    classes_of_isWordStart _ word.isWordChar_first word.isWordStart_first
  have hspace : isSpace word.first = false :=
    Bool.eq_false_iff.mpr (not_isSpace_of_not_isBlank hblank)
  have hnumber : Numeral.startsAt (word.chars ++ rest) = false := by
    rw [Word.chars, List.cons_append, Numeral.startsAt, readSign, hsign]
    split
    next heq => simp_all
    next => exact hdigit
  have hclose : startsCommentClose (word.chars ++ rest) = false := by
    rw [Bool.eq_false_iff]
    intro hclose
    obtain ⟨behind, heq⟩ := (startsCommentClose_iff _).mp hclose
    rw [Word.chars, List.cons_append, List.cons.injEq] at heq
    simp [heq.1] at hmarks
  have hname := startsName_word word rest
  simp only [Word.chars, List.cons_append] at hnumber hclose hname ⊢
  simp only [Token.read, hspace, hnumber, hclose, hname]
  rfl

theorem lex_word (word : Word) (hends : EndsWord rest) :
    lex (word.chars ++ rest) = ⟨.ident word.chars, word.chars⟩ :: lex rest := by
  have hread : Token.read word.first (word.rest ++ rest) =
      (.ident word.chars, word.rest.length) := by
    rw [Token.read_word, readWord_of_isWordChar word.isWordChar_of_mem_chars hends]
    rfl
  exact lex_cons_append hread

theorem lex_hash (word : Word) (hends : EndsWord rest) :
    lex ('#' :: word.chars ++ rest) =
      ⟨.idHash word.chars, '#' :: word.chars⟩ :: lex rest := by
  have hhash : readHash (word.chars ++ rest) =
      some (.idHash word.chars, word.chars.length) := by
    rw [readHash, readName_of_isWordChar word.isWordChar_of_mem_chars hends]
    exact if_pos (startsName_word word rest)
  have hread : Token.read '#' (word.chars ++ rest) =
      (.idHash word.chars, word.chars.length) := by
    change (readHash (word.chars ++ rest)).getD (.delim '#', 0) = _
    rw [hhash]
    rfl
  exact lex_cons_append hread

/-- A point in front of a word begins no number. -/
theorem lex_point (word : Word) (rest : List Char) :
    lex ('.' :: word.chars ++ rest) = ⟨.delim '.', ['.']⟩ :: lex (word.chars ++ rest) := by
  obtain ⟨-, hdigit, -, -⟩ :=
    classes_of_isWordStart _ word.isWordChar_first word.isWordStart_first
  have hnumber : Numeral.startsAt ('.' :: (word.chars ++ rest)) = false := hdigit
  have hread : Token.read '.' (word.chars ++ rest) = (.delim '.', 0) := by
    rw [Token.read, if_neg (by decide), hnumber]
    rfl
  rw [List.cons_append, lex_cons, hread, List.take_zero, List.drop_zero]

/-- A star in front of an equals sign would be a comparison. -/
theorem lex_star (hequals : rest.head? ≠ some '=') :
    lex ('*' :: rest) = ⟨.delim '*', ['*']⟩ :: lex rest := by
  have hread : Token.read '*' rest = (.delim '*', 0) := by
    cases rest with
    | nil => rfl
    | cons c rest =>
        change readMark '*' (c :: rest) = _
        unfold readMark
        split <;> simp_all
  rw [lex_cons, hread, List.take_zero, List.drop_zero]

end Words

end ThemeSheet

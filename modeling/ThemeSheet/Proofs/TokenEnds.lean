import ThemeSheet.Proofs.Edges

/-!
# Where tokens end

A token that ends in front of an edge is read the same in front of any other edge that
may take its place, whatever follows there.  Two tokens look past a space behind them: a
function, since a quote there keeps it from being a url, and a string that a newline
breaks.
-/

namespace ThemeSheet

/-! ## Urls -/

section Urls

variable {c : Char} {front rest other : List Char} {known : Nat}

theorem Swaps.urlChar_eq (hswaps : Swaps (c :: front) rest other)
    (hmore : ∀ value more, urlChar c (front ++ rest) = some (value, more) →
      more ≤ front.length) :
    urlChar c (front ++ other) = urlChar c (front ++ rest) := by
  by_cases hplain : isSpace c || isControl c || isQuote c || c == '(' || c == ')'
  · simp only [urlChar, if_pos hplain]
  · by_cases hbackslash : c = '\\'
    · subst hbackslash
      have hfront : front ≠ [] := by
        apply hswaps.ne_nil_of_escape
        intro hnewline
        apply hmore (some (readEscape (front ++ rest)).1)
        rw [urlChar, if_neg hplain, if_pos rfl, if_neg (by simp [hnewline])]
      rw [urlChar, urlChar, if_neg hplain, if_neg hplain, if_pos rfl, if_pos rfl,
        startsWithNewline_append hfront, startsWithNewline_append hfront]
      rw [urlChar, if_neg hplain, if_pos rfl, startsWithNewline_append hfront] at hmore
      split
      next => rfl
      next hnewline =>
        rw [if_neg hnewline] at hmore
        rw [hswaps.tail.readEscape_eq (hmore _ _ rfl)]
    · simp only [urlChar, if_neg hplain, if_neg hbackslash]

theorem badUrlChar_backslash (text : List Char) :
    badUrlChar '\\' text =
      some ((), if text.head? = some ')' ∨ text.head? = some '\\' then 1 else 0) := by
  unfold badUrlChar
  rw [if_neg (by decide), if_pos rfl]
  split
  next => rfl
  next => rfl
  next hclosing hbackslash =>
    rw [if_neg]
    rintro (hhead | hhead) <;> obtain ⟨tail, rfl⟩ := List.head?_eq_some_iff.mp hhead
    · exact hclosing tail rfl
    · exact hbackslash tail rfl

theorem Swaps.badUrlChar_eq (hswaps : Swaps (c :: front) rest other)
    (hmore : ∀ value more, badUrlChar c (front ++ rest) = some (value, more) →
      more ≤ front.length) :
    badUrlChar c (front ++ other) = badUrlChar c (front ++ rest) := by
  by_cases hbackslash : c = '\\'
  · subst hbackslash
    rw [badUrlChar_backslash] at hmore
    rw [badUrlChar_backslash, badUrlChar_backslash]
    cases front with
    | nil =>
        rw [List.nil_append] at hmore ⊢
        have hslash : ∀ {text : List Char}, AtEdge text → text.head? ≠ some '\\' :=
          fun htext hhead => absurd (htext _ hhead) (by decide)
        have hrest : rest.head? ≠ some ')' := by
          intro hhead
          have hlong := hmore _ _ rfl
          rw [if_pos (.inl hhead)] at hlong
          cases hlong
        have hother : other.head? ≠ some ')' := fun hhead => hrest (hswaps.closing hhead)
        simp [hrest, hother, hslash hswaps.atEdge, hslash hswaps.other_atEdge]
    | cons d front => rfl
  · simp only [badUrlChar, if_neg hbackslash]

theorem Swaps.readBadUrl_eq (hswaps : Swaps front rest other)
    (hwidth : (readBadUrl known (front ++ rest)).2 ≤ front.length) :
    readBadUrl known (front ++ other) = readBadUrl known (front ++ rest) := by
  have hpos := List.length_pos_iff.mpr hswaps.ne_nil
  simp only [readBadUrl, List.length_append] at hwidth ⊢
  have hknown : known ≤ front.length := by omega
  rw [List.drop_append_of_le_length hknown] at hwidth ⊢
  rw [List.drop_append_of_le_length hknown]
  have hbehind : Swaps (front.drop known) rest other :=
    hswaps.of_isSuffix (List.drop_suffix known front)
  rw [Span.readWhile_swap hbehind Swaps.badUrlChar_eq
    (by rw [List.length_drop]; omega) (by rw [List.length_drop]; omega)]
  rw [List.take_append_of_le_length (by omega), List.take_append_of_le_length (by omega)]
  congr 1
  omega

/-- How far the characters of an address and the spaces behind them go. -/
def addressWidth (text : List Char) : Nat :=
  let width := Span.width (Span.readWhile urlChar text)
  width + ((text.drop width).takeWhile isSpace).length

/-- Ends an address whose first `known` characters have been passed. -/
def closeAddress (spans : List (Span (Option Char))) (known : Nat) (text : List Char) :
    Token × Nat :=
  match text.drop known with
  | [] => (.url (Span.chars spans), known)
  | ')' :: _ => (.url (Span.chars spans), known + 1)
  | _ => readBadUrl (known + 1) text

theorem readAddress_eq_closeAddress (text : List Char) :
    readAddress text = closeAddress (Span.readWhile urlChar text) (addressWidth text) text :=
  rfl

/-- An address takes in what ends it, unless that is the end of the text. -/
theorem lt_width_closeAddress {spans : List (Span (Option Char))} {text : List Char}
    (hwidth : (closeAddress spans known text).2 < text.length) :
    known < (closeAddress spans known text).2 := by
  unfold closeAddress at hwidth ⊢
  split at hwidth
  next hnil => exact absurd (List.drop_eq_nil_iff.mp hnil) (Nat.not_le_of_lt hwidth)
  next => exact Nat.lt_succ_self known
  next =>
    simp only [readBadUrl] at hwidth ⊢
    omega

theorem Swaps.closeAddress_eq {spans : List (Span (Option Char))}
    (hswaps : Swaps front rest other) (hknown : known < front.length)
    (hwidth : (closeAddress spans known (front ++ rest)).2 ≤ front.length) :
    closeAddress spans known (front ++ other) = closeAddress spans known (front ++ rest) := by
  unfold closeAddress at hwidth ⊢
  rw [List.drop_append_of_le_length hknown.le] at hwidth ⊢
  rw [List.drop_append_of_le_length hknown.le]
  cases hdrop : front.drop known with
  | nil => exact absurd (List.drop_eq_nil_iff.mp hdrop) (Nat.not_le_of_lt hknown)
  | cons d behind =>
      rw [hdrop] at hwidth
      by_cases hd : d = ')'
      · subst hd
        rfl
      · simp only [List.cons_append] at hwidth ⊢
        split at hwidth
        next heq => cases heq
        next heq => exact absurd (List.cons.inj heq).1 hd
        next =>
          split
          next heq => cases heq
          next heq => exact absurd (List.cons.inj heq).1 hd
          next => exact hswaps.readBadUrl_eq hwidth

theorem Swaps.addressWidth_eq (hswaps : Swaps front rest other)
    (hwidth : addressWidth (front ++ rest) < front.length) :
    Span.readWhile urlChar (front ++ other) = Span.readWhile urlChar (front ++ rest) ∧
      addressWidth (front ++ other) = addressWidth (front ++ rest) := by
  have hspans : Span.width (Span.readWhile urlChar (front ++ rest)) < front.length :=
    (Nat.le_add_right _ _).trans_lt hwidth
  have halike : Span.readWhile urlChar (front ++ other) =
      Span.readWhile urlChar (front ++ rest) :=
    Span.readWhile_swap hswaps Swaps.urlChar_eq hspans.le
      (fun heq => absurd heq hspans.ne)
  refine ⟨halike, ?_⟩
  simp only [addressWidth, List.drop_append_of_le_length hspans.le] at hwidth
  simp only [addressWidth, halike, List.drop_append_of_le_length hspans.le]
  rw [takeWhile_append_of_length_lt]
  rw [List.length_drop]
  omega

theorem Swaps.readAddress_eq (hswaps : Swaps front rest other)
    (hwidth : (readAddress (front ++ rest)).2 ≤ front.length) :
    readAddress (front ++ other) = readAddress (front ++ rest) := by
  have hpos := List.length_pos_iff.mpr hswaps.ne_nil
  rw [readAddress_eq_closeAddress] at hwidth
  have hopen : addressWidth (front ++ rest) < front.length := by
    have hlong := lt_width_closeAddress
      (hwidth.trans_lt (by rw [List.length_append]; omega))
    exact hlong.trans_le hwidth
  obtain ⟨hspans, hknown⟩ := hswaps.addressWidth_eq hopen
  rw [readAddress_eq_closeAddress, readAddress_eq_closeAddress, hspans, hknown]
  exact hswaps.closeAddress_eq hopen hwidth

/-- Where only spaces are in front of a space, a quote may come behind them, and what
seems a url is none. -/
theorem Swaps.readUrl_eq (hswaps : Swaps front rest other)
    (hwidth : ∀ token width, readUrl (front ++ rest) = some (token, width) →
      width ≤ front.length)
    (hurl : startsWithSpace rest → readUrl (front ++ rest) ≠ none) :
    readUrl (front ++ other) = readUrl (front ++ rest) := by
  generalize hspaces : ((front ++ rest).takeWhile isSpace).length = spaces
  have hread : ∀ text : List Char, (text.takeWhile isSpace).length = spaces →
      readUrl text =
        if (text.drop spaces).head?.any isQuote then none
        else some ((readAddress (text.drop spaces)).1,
          spaces + (readAddress (text.drop spaces)).2) := by
    intro text htext
    simp only [readUrl, htext]
  rw [hread _ hspaces] at hwidth hurl
  have hlt : spaces < front.length := by
    by_contra hge
    have hpos := List.length_pos_iff.mpr hswaps.ne_nil
    by_cases hquote : ((front ++ rest).drop spaces).head?.any isQuote
    · -- No edge is a quote, so what is quoted would be behind a space.
      have hspace : startsWithSpace rest = false := by
        by_contra hspace
        rw [if_pos hquote] at hurl
        exact hurl (by simpa using hspace) rfl
      have hle := (List.takeWhile_prefix (l := front) isSpace).length_le
      rw [takeWhile_isSpace_append hspace] at hspaces
      have hwhole : spaces = front.length := by omega
      rw [hwhole, List.drop_left] at hquote
      obtain ⟨x, u, hrest⟩ := List.exists_cons_of_ne_nil hswaps.ne_nil
      have hx := not_isQuote_of_mem_edges x (hswaps.atEdge x (by rw [hrest]; rfl))
      rw [hrest, List.head?_cons, Option.any_some, hx] at hquote
      cases hquote
    · rw [if_neg hquote] at hwidth
      have hwhole := hwidth _ _ rfl
      have hempty : (readAddress ((front ++ rest).drop spaces)).2 = 0 := by omega
      have hbehind : (front ++ rest).drop spaces = rest := by
        rw [show spaces = front.length by omega, List.drop_left]
      rw [hbehind] at hempty
      rw [readAddress_eq_closeAddress] at hempty
      have hlong := lt_width_closeAddress (hempty.trans_lt hpos)
      omega
  have hother : ((front ++ other).takeWhile isSpace).length = spaces := by
    rw [takeWhile_append_of_length_lt (hspaces.trans_lt hlt), hspaces]
  rw [hread _ hother, hread _ hspaces, List.drop_append_of_le_length hlt.le,
    List.drop_append_of_le_length hlt.le]
  rw [List.drop_append_of_le_length hlt.le] at hwidth
  have hhead : ∀ text : List Char, (front.drop spaces ++ text).head? =
      (front.drop spaces).head? := by
    intro text
    rw [List.head?_append, List.head?_drop, List.getElem?_eq_getElem hlt, Option.some_or]
  rw [hhead] at hwidth
  rw [hhead, hhead]
  split
  next => rfl
  next hquote =>
    rw [if_neg hquote] at hwidth
    have hwhole := hwidth _ _ rfl
    have hbehind : Swaps (front.drop spaces) rest other :=
      hswaps.of_isSuffix (List.drop_suffix spaces front)
    rw [hbehind.readAddress_eq]
    rw [List.length_drop]
    omega

end Urls

/-! ## Numbers -/

section Numbers

variable {front rest other : List Char}

theorem startsWithDigit_append_edge (hrest : AtEdge rest) :
    startsWithDigit (front ++ rest) = startsWithDigit front := by
  cases front with
  | nil =>
      cases rest with
      | nil => rfl
      | cons x u => exact not_isDigit_of_mem_edges x (hrest x rfl)
  | cons c front => rfl

theorem readSign_append_edge (hrest : AtEdge rest) :
    readSign (front ++ rest) = ((readSign front).1, (readSign front).2 ++ rest) := by
  cases front with
  | nil =>
      cases rest with
      | nil => rfl
      | cons x u =>
          have hsign : ∀ x ∈ edges, Sign.ofChar? x = none := forall_mem_edges (by decide)
          simp [readSign, hsign x (hrest x rfl)]
  | cons c front =>
      rw [List.cons_append, readSign, readSign]
      cases Sign.ofChar? c <;> rfl

theorem readSign_isSuffix (text : List Char) : (readSign text).2 <:+ text := by
  cases text with
  | nil => exact List.suffix_refl []
  | cons c rest =>
      rw [readSign]
      cases Sign.ofChar? c with
      | none => exact List.suffix_refl _
      | some sign => exact List.suffix_cons c rest

namespace Numeral

theorem readFraction_isSuffix (text : List Char) : (readFraction text).2 <:+ text := by
  unfold readFraction
  split
  next rest =>
    split
    next => exact (List.dropWhile_suffix _).trans (List.suffix_cons _ rest)
    next => exact List.suffix_refl _
  next => exact List.suffix_refl text

theorem readExponent_isSuffix (text : List Char) : (readExponent text).2 <:+ text := by
  cases text with
  | nil => exact List.suffix_refl []
  | cons c rest =>
      simp only [readExponent]
      split
      next =>
        exact ((List.dropWhile_suffix _).trans (readSign_isSuffix rest)).trans
          (List.suffix_cons c rest)
      next => exact List.suffix_refl _

theorem read_isSuffix (text : List Char) : (read text).2 <:+ text :=
  (((readExponent_isSuffix _).trans (readFraction_isSuffix _)).trans
    (List.dropWhile_suffix _)).trans (readSign_isSuffix text)

theorem startsAt_append_edge (hrest : AtEdge rest) :
    startsAt (front ++ rest) = startsAt front := by
  have hdigit : startsWithDigit ([] ++ rest) = startsWithDigit [] :=
    startsWithDigit_append_edge hrest
  rw [startsAt, startsAt, readSign_append_edge hrest]
  simp only
  cases (readSign front).2 with
  | nil =>
      rw [List.nil_append] at hdigit ⊢
      split
      next behind => exact absurd (hrest '.' rfl) (by decide)
      next => exact hdigit
  | cons c behind =>
      by_cases hc : c = '.'
      · subst hc
        exact startsWithDigit_append_edge hrest
      · rw [List.cons_append]
        split <;> split <;> simp_all [startsWithDigit]

theorem readFraction_of_ne {c : Char} (hc : c ≠ '.') (rest : List Char) :
    readFraction (c :: rest) = ([], c :: rest) := by
  unfold readFraction
  split <;> simp_all

theorem readFraction_append_edge (hrest : AtEdge rest) :
    readFraction (front ++ rest) =
      ((readFraction front).1, (readFraction front).2 ++ rest) := by
  cases front with
  | nil =>
      cases rest with
      | nil => rfl
      | cons x u =>
          have hpoint : x ≠ '.' := ne_of_mem_of_not_mem (hrest x rfl) (by decide)
          rw [List.nil_append, readFraction_of_ne hpoint]
          simp [readFraction]
  | cons c front =>
      by_cases hc : c = '.'
      · subst hc
        simp only [List.cons_append, readFraction, startsWithDigit_append_edge hrest,
          takeWhile_append_edge hrest not_isDigit_of_mem_edges,
          dropWhile_append_edge hrest not_isDigit_of_mem_edges]
        split <;> rfl
      · rw [List.cons_append, readFraction_of_ne hc, readFraction_of_ne hc,
          List.cons_append]

theorem readExponent_append_edge (hrest : AtEdge rest) :
    readExponent (front ++ rest) =
      ((readExponent front).1, (readExponent front).2 ++ rest) := by
  cases front with
  | nil =>
      cases rest with
      | nil => rfl
      | cons x u =>
          have hmark : ∀ x ∈ edges, ¬(x = 'e' ∨ x = 'E') := forall_mem_edges (by decide)
          simp [readExponent, hmark x (hrest x rfl)]
  | cons c front =>
      simp only [List.cons_append, readExponent, readSign_append_edge hrest,
        startsWithDigit_append_edge hrest,
        takeWhile_append_edge hrest not_isDigit_of_mem_edges,
        dropWhile_append_edge hrest not_isDigit_of_mem_edges]
      split <;> rfl

theorem read_append_edge (hrest : AtEdge rest) :
    read (front ++ rest) = ((read front).1, (read front).2 ++ rest) := by
  simp only [read, readSign_append_edge hrest,
    takeWhile_append_edge hrest not_isDigit_of_mem_edges,
    dropWhile_append_edge hrest not_isDigit_of_mem_edges, readFraction_append_edge hrest,
    readExponent_append_edge hrest]

end Numeral

theorem readNumber_eq (text : List Char) :
    readNumber text =
      let (numeral, rest) := Numeral.read text
      let width := text.length - rest.length
      if rest.head? = some '%' then (.percentage numeral, width + 1)
      else if startsName rest then
        (.dimension numeral (readName rest).1, width + (readName rest).2)
      else (.number numeral, width) := by
  unfold readNumber
  rcases Numeral.read text with ⟨numeral, _ | ⟨c, rest⟩⟩
  · rfl
  · by_cases hc : c = '%'
    · subst hc
      rfl
    · simp only [List.head?_cons, Option.some.injEq, if_neg hc]
      split <;> simp_all

theorem Swaps.startsName_eq (hswaps : Swaps front rest other) :
    startsName (front ++ other) = startsName (front ++ rest) := by
  have hother : startsWithNewline other → front.getLast? ≠ some '\\' := by
    intro hnewline
    rw [hswaps.newline] at hnewline
    cases hnewline
  rw [startsName_append_edge hswaps.atEdge hswaps.backslash,
    startsName_append_edge hswaps.other_atEdge hother]

theorem Swaps.readNumber_eq (hswaps : Swaps front rest other)
    (hwidth : (readNumber (front ++ rest)).2 ≤ front.length) :
    readNumber (front ++ other) = readNumber (front ++ rest) := by
  have hsuffix := Numeral.read_isSuffix front
  have hshorter := hsuffix.length_le
  have hunit : Swaps (Numeral.read front).2 rest other := hswaps.of_isSuffix hsuffix
  have hlength : ∀ text : List Char,
      (front ++ text).length - ((Numeral.read front).2 ++ text).length =
        front.length - (Numeral.read front).2.length := by
    intro text
    simp only [List.length_append]
    omega
  have hpercent : '%' ∉ edges := by decide
  simp only [ThemeSheet.readNumber_eq, Numeral.read_append_edge hswaps.atEdge,
    Numeral.read_append_edge hswaps.other_atEdge, hlength,
    head?_append_edge hswaps.atEdge hpercent,
    head?_append_edge hswaps.other_atEdge hpercent, hunit.startsName_eq] at hwidth ⊢
  split
  next => rfl
  next hnot =>
    rw [if_neg hnot] at hwidth
    split
    next hname =>
      rw [if_pos hname] at hwidth
      rw [hunit.readName_eq (by omega)]
    next => rfl

end Numbers

/-! ## Tokens -/

/-- Whether spaces behind a token have a part in what it is: they may keep a function
from being a url, and a newline breaks a string. -/
def Token.looksPastSpace : Token → Bool
  | function _ | badString _ => true
  | _ => false

section Tokens

variable {c : Char} {front rest other : List Char}

theorem readWord_of_head?_ne {text : List Char}
    (hhead : (text.drop (readName text).2).head? ≠ some '(') :
    readWord text = (.ident (readName text).1, (readName text).2) := by
  unfold readWord
  simp only
  split
  next rest heq =>
    rw [heq] at hhead
    exact absurd rfl hhead
  next => rfl

theorem le_width_readWord (text : List Char) : (readName text).2 ≤ (readWord text).2 := by
  unfold readWord
  simp only
  split
  next =>
    split
    next =>
      split
      next => simp only; omega
      next => exact Nat.le_succ _
    next => exact Nat.le_succ _
  next => exact le_rfl

theorem Swaps.readWord_eq (hswaps : Swaps front rest other)
    (hwidth : (readWord (front ++ rest)).2 ≤ front.length)
    (hspace : startsWithSpace rest →
      (readWord (front ++ rest)).1.looksPastSpace = false) :
    readWord (front ++ other) = readWord (front ++ rest) := by
  have hbracket : '(' ∉ edges := by decide
  have hname := (le_width_readWord (front ++ rest)).trans hwidth
  have hsame := hswaps.readName_eq hname
  by_cases hhead : (front.drop (readName (front ++ rest)).2).head? = some '('
  · obtain ⟨behind, hbehind⟩ := List.head?_eq_some_iff.mp hhead
    have hlength := congrArg List.length hbehind
    rw [List.length_drop, List.length_cons] at hlength
    have hinner : Swaps behind rest other := by
      apply hswaps.of_isSuffix
      exact (List.suffix_cons '(' behind).trans (hbehind ▸ List.drop_suffix _ front)
    simp only [readWord, hsame, List.drop_append_of_le_length hname, hbehind,
      List.cons_append] at hwidth hspace ⊢
    split
    next hurl =>
      rw [if_pos hurl] at hwidth hspace
      have haddress : ∀ token width, readUrl (behind ++ rest) = some (token, width) →
          width ≤ behind.length := by
        intro token width hread
        simp only [hread] at hwidth
        omega
      have hquote : startsWithSpace rest → readUrl (behind ++ rest) ≠ none := by
        intro hspaced hread
        simp only [hread] at hspace
        cases hspace hspaced
      rw [hinner.readUrl_eq haddress hquote]
    next => rfl
  · rw [readWord_of_head?_ne, readWord_of_head?_ne, hsame]
    · rwa [List.drop_append_of_le_length hname, ne_eq,
        head?_append_edge hswaps.atEdge hbracket]
    · rwa [hsame, List.drop_append_of_le_length hname, ne_eq,
        head?_append_edge hswaps.other_atEdge hbracket]

theorem width_readName_of_isEmpty {text : List Char} (hname : (readName text).1.isEmpty) :
    (readName text).2 = 0 := by
  cases text with
  | nil => simp [readName, Span.readWhile]
  | cons c rest =>
      unfold readName at hname ⊢
      cases hnext : nameChar c rest with
      | none =>
          rw [Span.readWhile_of_none hnext]
          rfl
      | some read =>
          obtain ⟨value, more⟩ := read
          rw [Span.readWhile_of_some hnext] at hname
          unfold nameChar at hnext
          split at hnext <;> simp_all [Span.chars]

theorem Swaps.readHash_eq (hswaps : Swaps front rest other)
    (hwidth : ∀ token width, readHash (front ++ rest) = some (token, width) →
      width ≤ front.length) :
    readHash (front ++ other) = readHash (front ++ rest) := by
  have hname : (readName (front ++ rest)).2 ≤ front.length := by
    by_cases hempty : (readName (front ++ rest)).1.isEmpty
    · rw [width_readName_of_isEmpty hempty]
      exact Nat.zero_le _
    · by_cases hstart : startsName (front ++ rest)
      · exact hwidth (.idHash (readName (front ++ rest)).1) _
          (by simp [readHash, hstart])
      · exact hwidth (.hash (readName (front ++ rest)).1) _
          (by simp [readHash, hstart, hempty])
  simp only [readHash, hswaps.readName_eq hname, hswaps.startsName_eq]

theorem readMark_eq_delim (hrest : AtEdge rest)
    (hquote : c ≠ '"' ∧ c ≠ '\'' ∧ c ≠ '#' ∧ c ≠ '@')
    (hmark : readMark c front = (.delim c, 0)) :
    readMark c (front ++ rest) = (.delim c, 0) := by
  have hstar : '*' ∉ edges := by decide
  have hequal : '=' ∉ edges := by decide
  have hbang : '!' ∉ edges ∧ '-' ∉ edges := by decide
  generalize htext : front ++ rest = text
  fun_cases readMark c text with
  | case1 | case2 | case3 | case4 | case5 | case6 | case7 | case8 | case9 => cases hmark
  | case10 | case11 | case12 | case13 | case14 => simp at hquote
  | case15 =>
      obtain ⟨more, rfl, -⟩ := exists_of_append_edge_eq_cons hrest hstar htext
      cases hmark
  | case16 =>
      obtain ⟨first, rfl, hfirst⟩ := exists_of_append_edge_eq_cons hrest hbang.1 htext
      obtain ⟨second, rfl, hsecond⟩ := exists_of_append_edge_eq_cons hrest hbang.2 hfirst
      obtain ⟨third, rfl, -⟩ := exists_of_append_edge_eq_cons hrest hbang.2 hsecond
      cases hmark
  | case17 | case18 | case19 | case20 | case21 =>
      obtain ⟨more, rfl, -⟩ := exists_of_append_edge_eq_cons hrest hequal htext
      cases hmark
  | case22 => rfl

theorem Swaps.readMark_eq (hswaps : Swaps front rest other)
    (hwidth : (readMark c (front ++ rest)).2 ≤ front.length)
    (hspace : startsWithSpace rest →
      (readMark c (front ++ rest)).1.looksPastSpace = false) :
    readMark c (front ++ other) = readMark c (front ++ rest) := by
  have hwhole : ∀ quote, readMark quote (front ++ rest) = readQuoted quote (front ++ rest) →
      (startsWithSpace rest → (readMark quote (front ++ rest)).1.looksPastSpace = false) →
      startsWithNewline rest →
        ∀ text, (readQuoted quote (front ++ rest)).1 ≠ .badString text := by
    intro quote hquote hspace hnewline text hread
    rw [hquote, hread] at hspace
    cases hspace (startsWithSpace_of_startsWithNewline hnewline)
  fun_cases readMark c front with
  | case10 => exact hswaps.readQuoted_eq (by decide) hwidth (hwhole _ rfl hspace)
  | case11 => exact hswaps.readQuoted_eq (by decide) hwidth (hwhole _ rfl hspace)
  | case12 =>
      simp only [readMark] at hwidth ⊢
      rw [hswaps.readHash_eq]
      intro token width hread
      simpa [hread] using hwidth
  | case13 | case14 =>
      simp only [readMark, hswaps.startsName_eq] at hwidth ⊢
      by_cases hstart : startsName (front ++ rest) = true
      · rw [if_pos hstart] at hwidth
        rw [if_pos hstart, if_pos hstart, hswaps.readName_eq hwidth]
      · rw [if_neg hstart, if_neg hstart]
  | case15 behind =>
      obtain ⟨x, u, hrest⟩ := List.exists_cons_of_ne_nil hswaps.ne_nil
      simp only [hrest, List.cons_append, readMark, List.length_cons] at hwidth ⊢
      rw [commentWidth_append (x := x) (u := u) (by omega)]
  | case22 =>
      have hquote : c ≠ '"' ∧ c ≠ '\'' ∧ c ≠ '#' ∧ c ≠ '@' := by
        refine ⟨?_, ?_, ?_, ?_⟩ <;> assumption
      have hmark : readMark c front = (.delim c, 0) := by
        unfold readMark
        split <;> simp_all
      rw [readMark_eq_delim hswaps.atEdge hquote hmark,
        readMark_eq_delim hswaps.other_atEdge hquote hmark]
  | case1 | case2 | case3 | case4 | case5 | case6 | case7 | case8 | case9 | case16
  | case17 | case18 | case19 | case20 | case21 => rfl

theorem startsCommentClose_iff (text : List Char) :
    startsCommentClose text = true ↔ ∃ rest, text = '-' :: '-' :: '>' :: rest := by
  unfold startsCommentClose
  split <;> simp_all

theorem startsCommentClose_append_edge (hrest : AtEdge rest) :
    startsCommentClose (front ++ rest) = startsCommentClose front := by
  have hmarks : '-' ∉ edges ∧ '>' ∉ edges := by decide
  rw [Bool.eq_iff_iff, startsCommentClose_iff, startsCommentClose_iff]
  constructor
  · rintro ⟨behind, htext⟩
    obtain ⟨first, rfl, hfirst⟩ := exists_of_append_edge_eq_cons hrest hmarks.1 htext
    obtain ⟨second, rfl, hsecond⟩ := exists_of_append_edge_eq_cons hrest hmarks.1 hfirst
    obtain ⟨third, rfl, -⟩ := exists_of_append_edge_eq_cons hrest hmarks.2 hsecond
    exact ⟨third, rfl⟩
  · rintro ⟨behind, rfl⟩
    exact ⟨behind ++ rest, rfl⟩

/-- A token that ends in front of an edge is read the same in front of any other that
may take its place. -/
theorem Swaps.read_eq (hswaps : Swaps (c :: front) rest other)
    (hwidth : (Token.read c (front ++ rest)).2 ≤ front.length)
    (hspace : startsWithSpace rest →
      (Token.read c (front ++ rest)).1.looksPastSpace = false) :
    Token.read c (front ++ other) = Token.read c (front ++ rest) := by
  have hnumber : ∀ {text : List Char}, AtEdge text →
      Numeral.startsAt (c :: (front ++ text)) = Numeral.startsAt (c :: front) :=
    fun htext => by rw [← List.cons_append, Numeral.startsAt_append_edge htext]
  have hclose : ∀ {text : List Char}, AtEdge text →
      startsCommentClose (c :: (front ++ text)) = startsCommentClose (c :: front) :=
    fun htext => by rw [← List.cons_append, startsCommentClose_append_edge htext]
  have hname : startsName (c :: (front ++ other)) = startsName (c :: (front ++ rest)) :=
    hswaps.startsName_eq
  simp only [Token.read, Token.behindFirst, hnumber hswaps.atEdge,
    hnumber hswaps.other_atEdge, hclose hswaps.atEdge, hclose hswaps.other_atEdge,
    hname] at hwidth hspace ⊢
  split
  next hblank =>
    rw [if_pos hblank] at hwidth
    rw [hswaps.tail.takeWhile_isSpace hwidth]
  next hblank =>
    rw [if_neg hblank] at hwidth hspace
    split
    next hstart =>
      rw [if_pos hstart] at hwidth
      have hread : (readNumber ((c :: front) ++ rest)).2 ≤ (c :: front).length := by
        rw [List.cons_append, List.length_cons]
        exact Nat.sub_le_iff_le_add.mp hwidth
      have hsame := hswaps.readNumber_eq hread
      rw [List.cons_append, List.cons_append] at hsame
      rw [hsame]
    next hstart =>
      rw [if_neg hstart] at hwidth hspace
      split
      next => rfl
      next hclose =>
        rw [if_neg hclose] at hwidth hspace
        split
        next hstart =>
          rw [if_pos hstart] at hwidth hspace
          have hread : (readWord ((c :: front) ++ rest)).2 ≤ (c :: front).length := by
            rw [List.cons_append, List.length_cons]
            exact Nat.sub_le_iff_le_add.mp hwidth
          have hsame := hswaps.readWord_eq hread hspace
          rw [List.cons_append, List.cons_append] at hsame
          rw [hsame]
        next hstart =>
          rw [if_neg hstart] at hwidth hspace
          exact hswaps.tail.readMark_eq hwidth hspace

end Tokens

end ThemeSheet

import ThemeSheet.Proofs.TokenEnds

/-!
# Reading tokens from joined texts

Tokens in front of a mark stay as they are when the text goes on differently
behind them.  What separates rules may run on into the text that follows, but
only to where the tokens of that text begin.
-/

namespace ThemeSheet

@[simp] theorem lex_nil : lex [] = [] := by simp [lex, Span.readWhile]

theorem lex_cons (c : Char) (rest : List Char) :
    lex (c :: rest) =
      ⟨(Token.read c rest).1, c :: rest.take (Token.read c rest).2⟩ ::
        lex (rest.drop (Token.read c rest).2) := by
  unfold lex
  exact Span.readWhile_of_some rfl

section Joined

variable {text u v : List Char} {front back : List Lexeme} {x y : Char}

theorem eq_sources_append (hlex : lex text = front ++ back) :
    text = Span.sources front ++ Span.sources back := by
  rw [← Span.sources_append, ← hlex, sources_lex]

/-- A token is read from the front of what the text is from it on. -/
theorem exists_cons_of_lex {lexeme : Lexeme} (hlex : lex text = lexeme :: back) :
    ∃ c rest, text = c :: rest ∧
      lexeme = ⟨(Token.read c rest).1, c :: rest.take (Token.read c rest).2⟩ ∧
      lex (rest.drop (Token.read c rest).2) = back := by
  cases text with
  | nil => simp at hlex
  | cons c rest =>
      rw [lex_cons, List.cons.injEq] at hlex
      exact ⟨c, rest, rfl, hlex.1.symm, hlex.2⟩

/-- What is left behind some tokens of a text is read as what is left of its
tokens. -/
theorem lex_sources (hlex : lex text = front ++ back) :
    lex (Span.sources back) = back := by
  induction front generalizing text with
  | nil =>
      rw [List.nil_append] at hlex
      rw [← hlex, sources_lex]
  | cons lexeme front ih =>
      obtain ⟨c, rest, -, -, hbehind⟩ := exists_cons_of_lex hlex
      exact ih hbehind

theorem lex_sources_tail {lexeme : Lexeme} (hlex : lex text = lexeme :: back) :
    lex (Span.sources back) = back := by
  rw [← List.singleton_append] at hlex
  exact lex_sources hlex

theorem lex_cons_append {token : Token} {c : Char} {taken rest : List Char}
    (hread : Token.read c (taken ++ rest) = (token, taken.length)) :
    lex (c :: (taken ++ rest)) = ⟨token, c :: taken⟩ :: lex rest := by
  rw [lex_cons, hread, List.take_left, List.drop_left]

/-- How the first of several tokens was read. -/
theorem exists_of_lex_eq_cons {lexeme : Lexeme}
    (hlex : lex text = lexeme :: back) (hback : Span.sources back ≠ []) :
    ∃ token c taken, lexeme = ⟨token, c :: taken⟩ ∧
      Token.read c (taken ++ Span.sources back) = (token, taken.length) := by
  obtain ⟨c, rest, -, hfirst, hrest⟩ := exists_cons_of_lex hlex
  rw [← hrest, sources_lex] at hback ⊢
  have hmore : (Token.read c rest).2 ≤ rest.length :=
    Nat.le_of_not_ge (fun hge => hback (List.drop_eq_nil_of_le hge))
  refine ⟨_, c, rest.take (Token.read c rest).2, hfirst, ?_⟩
  rw [List.take_append_drop, List.length_take_of_le hmore]

/-- Tokens in front of an edge stay as they are in front of any other that may take its
place. -/
theorem lex_swap {other : List Char} (hlex : lex text = front ++ back)
    (hswaps : Swaps (Span.sources front) (Span.sources back) other)
    (hspace : startsWithSpace (Span.sources back) →
      ∀ lexeme ∈ front, lexeme.value.looksPastSpace = false) :
    lex (Span.sources front ++ other) = front ++ lex other := by
  induction front generalizing text with
  | nil => rfl
  | cons lexeme front ih =>
      have hsources : Span.sources (front ++ back) = Span.sources front ++ Span.sources back :=
        Span.sources_append front back
      rw [List.cons_append] at hlex
      obtain ⟨token, c, taken, rfl, hread⟩ :=
        exists_of_lex_eq_cons hlex (by simp [hsources, hswaps.ne_nil])
      have hrest : lex (Span.sources (front ++ back)) = front ++ back :=
        lex_sources_tail hlex
      rw [Span.sources_cons] at hswaps
      rw [hsources, ← List.append_assoc] at hread
      have hsame : Token.read c (taken ++ Span.sources front ++ other) =
          (token, taken.length) := by
        rw [← hread]
        apply Swaps.read_eq (by simpa using hswaps)
        · rw [hread, List.length_append]
          exact Nat.le_add_right _ _
        · intro hspaced
          rw [hread]
          exact hspace hspaced _ List.mem_cons_self
      have hbehind : Swaps (Span.sources front) (Span.sources back) other :=
        hswaps.of_isSuffix (List.suffix_append _ _)
      have htail := ih hrest hbehind fun hspaced lexeme hmem =>
        hspace hspaced lexeme (List.mem_cons_of_mem _ hmem)
      rw [List.append_assoc] at hsame
      simp only [Span.sources_cons, List.cons_append, List.append_assoc]
      rw [lex_cons_append hsame, htail]

end Joined

/-! ## Marks -/

/-- The character of a token that is one by itself and an edge for whatever is in front
of it. -/
def Token.mark? : Token → Option Char
  | comma => some ','
  | colon => some ':'
  | semicolon => some ';'
  | opening .curly => some '\x7b'
  | closing .round => some ')'
  | closing .square => some ']'
  | closing .curly => some '\x7d'
  | _ => none

/-- Whether a token is neither a mark nor a gap. -/
def Token.isContent (token : Token) : Bool := token.mark?.isNone && !token.isGap

/-- Whether a token is no identifier without a name. -/
def Token.isNamed : Token → Bool
  | ident name => !name.isEmpty
  | _ => true

section Marks

variable {token : Token} {c mark : Char} {text rest : List Char}

theorem Token.mem_edges_of_mark? (hmark : token.mark? = some mark) : mark ∈ edges := by
  unfold mark? at hmark
  split at hmark <;> simp_all [edges] <;> subst mark <;> simp

theorem Token.not_isSpace_of_mark? (hmark : token.mark? = some mark) :
    isSpace mark = false := by
  unfold mark? at hmark
  split at hmark <;> simp_all <;> subst mark <;> rfl

theorem mark?_of_closing {lexeme : Lexeme} (hclosing : lexeme.value = .closing .curly) :
    lexeme.value.mark? = some '\x7d' := by
  rw [hclosing]
  rfl

theorem classes_readNumber (text : List Char) :
    (readNumber text).1.isContent ∧ (readNumber text).1.isNamed := by
  rw [readNumber_eq]
  rcases Numeral.read text with ⟨numeral, rest⟩
  simp only
  split
  next => exact ⟨rfl, rfl⟩
  next => split <;> exact ⟨rfl, rfl⟩

theorem classes_readAddress (text : List Char) :
    (readAddress text).1.isContent ∧ (readAddress text).1.isNamed := by
  unfold readAddress
  simp only
  split <;> exact ⟨rfl, rfl⟩

theorem classes_of_readUrl {width : Nat} (hread : readUrl text = some (token, width)) :
    token.isContent ∧ token.isNamed := by
  simp only [readUrl] at hread
  split at hread
  next => cases hread
  next =>
    rw [Option.some.injEq, Prod.mk.injEq] at hread
    rw [← hread.1]
    exact classes_readAddress _

theorem exists_nameChar_of_startsName (hstarts : startsName (c :: rest)) :
    ∃ read more, nameChar c rest = some (some read, more) := by
  by_cases hc : isNameChar c
  · exact ⟨visible c, 0, by rw [nameChar, if_pos hc]⟩
  · have hhyphen : c ≠ '-' := by
      rintro rfl
      exact hc (by decide)
    have hbackslash : c = '\\' := by
      by_contra hother
      rw [startsName_cons hhyphen hother] at hstarts
      exact hc (by simp [isNameChar, hstarts])
    subst hbackslash
    rw [nameChar, if_neg hc, if_pos ⟨rfl, hstarts⟩]
    exact ⟨_, _, rfl⟩

theorem readName_ne_nil (hstarts : startsName text) : (readName text).1 ≠ [] := by
  cases text with
  | nil => cases hstarts
  | cons c rest =>
      obtain ⟨read, more, hread⟩ := exists_nameChar_of_startsName hstarts
      rw [readName, Span.readWhile_of_some hread]
      simp [Span.chars]

theorem classes_readWord (hstarts : startsName text) :
    (readWord text).1.isContent ∧ (readWord text).1.isNamed := by
  unfold readWord
  simp only
  split
  next =>
    split
    next =>
      split
      next hread => exact classes_of_readUrl hread
      next => exact ⟨rfl, rfl⟩
    next => exact ⟨rfl, rfl⟩
  next => exact ⟨rfl, by simpa [Token.isNamed] using readName_ne_nil hstarts⟩

theorem classes_readQuoted (quote : Char) (text : List Char) :
    (readQuoted quote text).1.isContent ∧ (readQuoted quote text).1.isNamed := by
  unfold readQuoted
  simp only
  split
  next => exact ⟨rfl, rfl⟩
  next => split <;> exact ⟨rfl, rfl⟩

theorem classes_readHash (c : Char) (text : List Char) :
    ((readHash text).getD (.delim c, 0)).1.isContent ∧
      ((readHash text).getD (.delim c, 0)).1.isNamed := by
  unfold readHash
  simp only
  split
  next => exact ⟨rfl, rfl⟩
  next => split <;> exact ⟨rfl, rfl⟩

/-- What a character that starts no space, number or name may begin. -/
theorem readMark_forms (c : Char) (rest : List Char) :
    ((readMark c rest).1.isContent ∧ (readMark c rest).1.isNamed) ∨
      ((readMark c rest).1.mark? = some c ∧ (readMark c rest).2 = 0) ∨
      (∃ body, c = '/' ∧ rest = '*' :: body) := by
  fun_cases readMark c rest with
  | case1 | case2 | case3 | case5 | case7 | case8 | case9 => exact .inr (.inl ⟨rfl, rfl⟩)
  | case10 | case11 => exact .inl (classes_readQuoted _ rest)
  | case12 => exact .inl (classes_readHash _ rest)
  | case13 | case14 =>
      left
      split <;> exact ⟨rfl, rfl⟩
  | case15 body => exact .inr (.inr ⟨body, rfl, rfl⟩)
  | _ => exact .inl ⟨rfl, rfl⟩

theorem Token.read_forms (c : Char) (rest : List Char) :
    ((Token.read c rest).1.isContent ∧ (Token.read c rest).1.isNamed) ∨
      ((Token.read c rest).1.mark? = some c ∧ (Token.read c rest).2 = 0) ∨
      isSpace c ∨ (∃ body, c = '/' ∧ rest = '*' :: body) := by
  simp only [Token.read, Token.behindFirst]
  split
  next hspace => exact .inr (.inr (.inl hspace))
  next =>
    split
    next => exact .inl (classes_readNumber _)
    next =>
      split
      next => exact .inl ⟨rfl, rfl⟩
      next =>
        split
        next hstarts => exact .inl (classes_readWord hstarts)
        next =>
          rcases readMark_forms c rest with hcontent | hmark | hcomment
          · exact .inl hcontent
          · exact .inr (.inl hmark)
          · exact .inr (.inr (.inr hcomment))

@[simp] theorem Token.read_space (hspace : isSpace c) (rest : List Char) :
    Token.read c rest = (.whitespace, (rest.takeWhile isSpace).length) := by
  rw [Token.read, if_pos hspace]

@[simp] theorem Token.read_comment (body : List Char) :
    Token.read '/' ('*' :: body) = (.comment, 1 + commentWidth body) :=
  rfl

theorem eq_of_mark?_read (hmark : (Token.read c rest).1.mark? = some mark) :
    c = mark ∧ (Token.read c rest).2 = 0 := by
  rcases Token.read_forms c rest with
    ⟨hcontent, -⟩ | ⟨hself, hwidth⟩ | hspace | ⟨body, rfl, rfl⟩
  · simp [Token.isContent, hmark] at hcontent
  · rw [hself, Option.some.injEq] at hmark
    exact ⟨hmark, hwidth⟩
  · rw [Token.read_space hspace] at hmark
    cases hmark
  · cases hmark

theorem forms_of_isGap_read (hgap : (Token.read c rest).1.isGap) :
    isSpace c ∨ ∃ body, c = '/' ∧ rest = '*' :: body := by
  rcases Token.read_forms c rest with ⟨hcontent, -⟩ | ⟨hself, -⟩ | hforms
  · simp [Token.isContent, hgap] at hcontent
  · unfold Token.mark? at hself
    split at hself <;> simp_all [Token.isGap]
  · exact hforms

theorem isNamed_read (c : Char) (rest : List Char) : (Token.read c rest).1.isNamed := by
  rcases Token.read_forms c rest with
    ⟨-, hnamed⟩ | ⟨hself, -⟩ | hspace | ⟨body, rfl, rfl⟩
  · exact hnamed
  · cases htoken : (Token.read c rest).1 with
    | ident name =>
        rw [htoken] at hself
        cases hself
    | _ => rfl
  · rw [Token.read_space hspace]
    rfl
  · rfl

/-- No identifier of a text is without a name. -/
theorem isNamed_of_mem_lex {lexeme : Lexeme} (hmem : lexeme ∈ lex text) :
    lexeme.value.isNamed := by
  obtain ⟨front, back, hlex⟩ := List.append_of_mem hmem
  have hback := lex_sources hlex
  cases hsources : Span.sources (lexeme :: back) with
  | nil =>
      rw [hsources, lex_nil] at hback
      cases hback
  | cons c rest =>
      rw [hsources, lex_cons, List.cons.injEq] at hback
      rw [← hback.1]
      exact isNamed_read c rest

/-- A mark is a token by itself, whatever follows. -/
theorem lex_mark (hmark : token.mark? = some mark) (rest : List Char) :
    lex (mark :: rest) = ⟨token, [mark]⟩ :: lex rest := by
  have hedge : AtEdge (mark :: rest) := atEdge_cons (Token.mem_edges_of_mark? hmark) rest
  have hread : Token.read mark rest = readMark mark rest := by
    have hnumber : Numeral.startsAt ([] ++ mark :: rest) = Numeral.startsAt [] :=
      Numeral.startsAt_append_edge hedge
    have hclose : startsCommentClose ([] ++ mark :: rest) = startsCommentClose [] :=
      startsCommentClose_append_edge hedge
    simp only [List.nil_append] at hnumber hclose
    simp only [Token.read, hnumber, hclose, startsName_of_atEdge hedge,
      Token.not_isSpace_of_mark? hmark]
    rfl
  have hmarked : readMark mark rest = (token, 0) := by
    unfold Token.mark? at hmark
    split at hmark <;> simp_all <;> subst mark <;> rfl
  rw [lex_cons, hread, hmarked, List.take_zero, List.drop_zero]

theorem source_of_mark? {mark : Char} {lexeme : Lexeme} {back : List Lexeme}
    (hlex : lex text = lexeme :: back) (hmark : lexeme.value.mark? = some mark) :
    lexeme.source = [mark] := by
  obtain ⟨c, rest, -, rfl, -⟩ := exists_cons_of_lex hlex
  obtain ⟨rfl, hwidth⟩ := eq_of_mark?_read hmark
  rw [hwidth, List.take_zero]

theorem sources_of_mark? {front back : List Lexeme} {lexeme : Lexeme}
    (hlex : lex text = front ++ lexeme :: back)
    (hmark : lexeme.value.mark? = some mark) :
    Span.sources (lexeme :: back) = mark :: Span.sources back := by
  rw [Span.sources_cons, source_of_mark? (lex_sources hlex) hmark, List.singleton_append]

/-- Tokens in front of a mark stay as they are in front of any edge in its place. -/
theorem lex_swap_mark {front back : List Lexeme} {lexeme : Lexeme} {other : List Char}
    (hlex : lex text = front ++ lexeme :: back)
    (hmark : lexeme.value.mark? = some mark)
    (hswaps : Swaps (Span.sources front) (mark :: Span.sources back) other) :
    lex (Span.sources front ++ other) = front ++ lex other := by
  rw [← sources_of_mark? hlex hmark] at hswaps
  apply lex_swap hlex hswaps
  intro hspaced
  rw [sources_of_mark? hlex hmark, startsWithSpace, Token.not_isSpace_of_mark? hmark]
    at hspaced
  cases hspaced

/-- Tokens up to a mark stay as they are whatever follows the mark. -/
theorem lex_append_mark {front back : List Lexeme} {lexeme : Lexeme}
    (hlex : lex text = front ++ lexeme :: back)
    (hmark : lexeme.value.mark? = some mark) (rest : List Char) :
    lex (Span.sources front ++ mark :: rest) = front ++ lexeme :: lex rest := by
  have hedge := Token.mem_edges_of_mark? hmark
  have hspace := Token.not_isSpace_of_mark? hmark
  rw [lex_swap_mark hlex hmark (swaps_cons hedge hedge hspace hspace id _ _ rest),
    lex_mark hmark, ← source_of_mark? (lex_sources hlex) hmark]

/-- The tokens up to a mark are those of the text up to the mark. -/
theorem lex_to_mark {front back : List Lexeme} {lexeme : Lexeme}
    (hlex : lex text = front ++ lexeme :: back)
    (hmark : lexeme.value.mark? = some mark) :
    lex (Span.sources front ++ [mark]) = front ++ [lexeme] := by
  rw [lex_append_mark hlex hmark, lex_nil]

/-- Text behind a mark leaves the tokens up to the mark alone. -/
theorem lex_append_of_mark {front back : List Lexeme} {lexeme : Lexeme}
    (hlex : lex text = front ++ lexeme :: back)
    (hmark : lexeme.value.mark? = some mark) (more : List Char) :
    lex (text ++ more) = front ++ lexeme :: lex (Span.sources back ++ more) := by
  rw [← lex_append_mark hlex hmark, eq_sources_append hlex, sources_of_mark? hlex hmark,
    List.append_assoc, List.cons_append]

end Marks

/-! ## Gaps -/

/-- Whether a token is a comment that the end of the text cuts off.  The star
that begins a comment does not close it. -/
def isOpenComment (lexeme : Lexeme) : Bool :=
  lexeme.value = .comment && !List.isSuffixOf ['*', '/'] (lexeme.source.drop 2)

def endsInComment (text : List Char) : Bool :=
  (lex text).getLast?.any isOpenComment

section Gaps

variable {text body rest : List Char} {gap : Lexeme} {gaps : List Lexeme}

theorem commentWidth_le_length (body : List Char) : commentWidth body ≤ body.length := by
  fun_induction commentWidth body with
  | case1 behind => simp
  | case2 c behind hopen ih => simpa using ih
  | case3 => exact Nat.le_refl 0

theorem commentWidth_cons_le (c : Char) (rest : List Char) :
    commentWidth (c :: rest) ≤ commentWidth rest + 1 := by
  rw [commentWidth.eq_def (c :: rest)]
  split
  next behind hclose =>
    rw [(List.cons.inj hclose).2]
    exact Nat.succ_le_succ (commentWidth_cons_pos '/' behind)
  next hopen =>
    rw [(List.cons.inj hopen).2]
  next hnil => cases hnil

theorem commentWidth_take_append (hmore : body.drop (commentWidth body) ≠ [])
    (rest : List Char) :
    commentWidth (body.take (commentWidth body) ++ rest) = commentWidth body := by
  have hlength : (body.take (commentWidth body)).length = commentWidth body :=
    List.length_take_of_le (commentWidth_le_length body)
  cases hdrop : body.drop (commentWidth body) with
  | nil => exact absurd hdrop hmore
  | cons x u =>
      have hbody : body.take (commentWidth body) ++ x :: u = body := by
        rw [← hdrop, List.take_append_drop]
      rw [commentWidth_append (x := x) (u := u), hbody]
      rw [hbody, hlength]

theorem commentWidth_append_of_le
    (hwidth : commentWidth (body ++ rest) ≤ body.length) :
    commentWidth (body ++ rest) = commentWidth body := by
  cases rest with
  | nil => rw [List.append_nil]
  | cons x u => rw [← commentWidth_append hwidth [], List.append_nil]

theorem commentWidth_append_of_isSuffix (hclosed : ['*', '/'] <:+ body)
    (rest : List Char) : commentWidth (body ++ rest) = commentWidth body := by
  apply commentWidth_append_of_le
  obtain ⟨inner, rfl⟩ := hclosed
  induction inner with
  | nil => exact Nat.le_refl 2
  | cons c inner ih =>
      simp only [List.cons_append, List.length_cons] at ih ⊢
      exact (commentWidth_cons_le _ _).trans (Nat.succ_le_succ ih)

theorem lex_space {c : Char} (hspace : isSpace c) (rest : List Char) :
    lex (c :: rest) =
      ⟨.whitespace, c :: rest.takeWhile isSpace⟩ :: lex (rest.dropWhile isSpace) := by
  have hread : Token.read c (rest.takeWhile isSpace ++ rest.dropWhile isSpace) =
      (.whitespace, (rest.takeWhile isSpace).length) := by
    rw [List.takeWhile_append_dropWhile, Token.read_space hspace]
  simpa only [List.takeWhile_append_dropWhile] using lex_cons_append hread

theorem dropGaps_lex_space {c : Char} (hspace : isSpace c) (rest : List Char) :
    dropGaps (lex (c :: rest)) = dropGaps (lex rest) := by
  rw [lex_space hspace, dropGaps_cons_of_isGap rfl]
  cases rest with
  | nil => rfl
  | cons d behind =>
      by_cases hd : isSpace d
      · rw [List.dropWhile_cons_of_pos hd, lex_space hd, dropGaps_cons_of_isGap rfl]
      · rw [List.dropWhile_cons_of_neg hd]

theorem dropGaps_lex_spaces {spaces : List Char} (hspaces : ∀ c ∈ spaces, isSpace c)
    (rest : List Char) : dropGaps (lex (spaces ++ rest)) = dropGaps (lex rest) := by
  induction spaces with
  | nil => rfl
  | cons c spaces ih =>
      rw [List.forall_mem_cons] at hspaces
      rw [List.cons_append, dropGaps_lex_space hspaces.1, ih hspaces.2]

theorem dropGaps_lex_comment (body : List Char) :
    dropGaps (lex ('/' :: '*' :: body)) =
      dropGaps (lex (body.drop (commentWidth body))) := by
  rw [lex_cons, Token.read_comment, dropGaps_cons_of_isGap rfl, Nat.add_comm,
    List.drop_succ_cons]

/-- What a text begins with whose first token is a gap. -/
theorem begins_of_isGap (hlex : lex text = gap :: gaps) (hgap : gap.value.isGap) :
    gap.value = .whitespace ∧ startsWithSpace text ∨
      gap.value = .comment ∧ ∃ body, text = '/' :: '*' :: body := by
  obtain ⟨c, rest, rfl, rfl, -⟩ := exists_cons_of_lex hlex
  rcases forms_of_isGap_read hgap with hspace | ⟨body, rfl, rfl⟩
  · exact .inl ⟨by simp only [Token.read_space hspace], hspace⟩
  · exact .inr ⟨by simp only [Token.read_comment], body, rfl⟩

/-- A gap is a stretch of spaces or a comment.  A comment with something behind
it is closed. -/
theorem forms_of_isGap (hlex : lex text = gap :: gaps) (hgap : gap.value.isGap) :
    (∀ c ∈ gap.source, isSpace c) ∨
      ∃ body, gap = ⟨.comment, '/' :: '*' :: body⟩ ∧
        commentWidth body = body.length ∧
        (gaps ≠ [] → ∀ more, commentWidth (body ++ more) = body.length) := by
  cases text with
  | nil => simp at hlex
  | cons c rest =>
      have hfirst : (Token.read c rest).1.isGap := by
        rw [lex_cons, List.cons.injEq] at hlex
        rwa [← hlex.1] at hgap
      rcases forms_of_isGap_read hfirst with hspace | ⟨body, rfl, rfl⟩
      · left
        rw [lex_space hspace, List.cons.injEq] at hlex
        rw [← hlex.1, List.forall_mem_cons]
        exact ⟨hspace, fun d hd => List.mem_takeWhile_imp hd⟩
      · right
        rw [lex_cons, Token.read_comment, Nat.add_comm, List.take_succ_cons,
          List.drop_succ_cons, List.cons.injEq] at hlex
        have hlength : (body.take (commentWidth body)).length = commentWidth body :=
          List.length_take_of_le (commentWidth_le_length body)
        refine ⟨_, hlex.1.symm, ?_, ?_⟩
        · by_cases hmore : body.drop (commentWidth body) = []
          · have hwhole := List.drop_eq_nil_iff.mp hmore
            rw [hlength, List.take_of_length_le hwhole]
          · rw [hlength]
            simpa using commentWidth_take_append hmore []
        · intro hgaps more
          rw [hlength]
          apply commentWidth_take_append
          intro hnil
          rw [hnil, lex_nil] at hlex
          exact hgaps hlex.2.symm

theorem dropGaps_lex_closed_gap (hlex : lex text = gap :: gaps) (hgap : gap.value.isGap)
    (hclosed : gaps = [] → isOpenComment gap = false) (rest : List Char) :
    dropGaps (lex (gap.source ++ rest)) = dropGaps (lex rest) := by
  rcases forms_of_isGap hlex hgap with hspaces | ⟨body, rfl, hbody, hmore⟩
  · exact dropGaps_lex_spaces hspaces rest
  · have hwidth : commentWidth (body ++ rest) = body.length := by
      by_cases hgaps : gaps = []
      · rw [commentWidth_append_of_isSuffix _ rest, hbody]
        simpa [isOpenComment] using hclosed hgaps
      · exact hmore hgaps rest
    rw [List.cons_append, List.cons_append, dropGaps_lex_comment, hwidth, List.drop_left]

/-- Gaps that end in no open comment have no part in what follows them. -/
theorem dropGaps_lex_closed_gaps (hlex : lex (Span.sources gaps) = gaps)
    (hgaps : ∀ gap ∈ gaps, gap.value.isGap)
    (hclosed : ∀ gap, gaps.getLast? = some gap → isOpenComment gap = false)
    (rest : List Char) :
    dropGaps (lex (Span.sources gaps ++ rest)) = dropGaps (lex rest) := by
  induction gaps with
  | nil => rfl
  | cons gap gaps ih =>
      rw [List.forall_mem_cons] at hgaps
      have hbehind : lex (Span.sources gaps) = gaps := lex_sources_tail hlex
      calc
        dropGaps (lex (Span.sources (gap :: gaps) ++ rest)) =
            dropGaps (lex (gap.source ++ (Span.sources gaps ++ rest))) := by
              rw [Span.sources_cons, List.append_assoc]
        _ = dropGaps (lex (Span.sources gaps ++ rest)) := by
          apply dropGaps_lex_closed_gap hlex hgaps.1
          intro hnil
          apply hclosed
          rw [hnil, List.getLast?_singleton]
        _ = dropGaps (lex rest) := by
          apply ih hbehind hgaps.2
          intro last hlast
          apply hclosed
          rw [List.getLast?_cons, hlast, Option.getD_some]

theorem sources_dropGaps_lex_isSuffix (text : List Char) :
    Span.sources (dropGaps (lex text)) <:+ text := by
  obtain ⟨front, hfront⟩ := dropGaps_isSuffix (lex text)
  refine ⟨Span.sources front, ?_⟩
  rw [← Span.sources_append, hfront, sources_lex]

theorem sources_dropGaps_lex_comment (hbody : commentWidth body = body.length)
    (rest : List Char) :
    Span.sources (dropGaps (lex ('/' :: '*' :: (body ++ rest)))) <:+ rest := by
  have hwidth : body.length ≤ commentWidth (body ++ rest) := by
    rcases Nat.le_total body.length (commentWidth (body ++ rest)) with hle | hge
    · exact hle
    · rw [commentWidth_append_of_le hge, hbody]
  rw [dropGaps_lex_comment, List.drop_append, List.drop_eq_nil_of_le hwidth,
    List.nil_append]
  exact (sources_dropGaps_lex_isSuffix _).trans (List.drop_suffix _ rest)

/-- Gaps run on at most into what follows them. -/
theorem sources_dropGaps_lex_gaps (hlex : lex (Span.sources gaps) = gaps)
    (hgaps : ∀ gap ∈ gaps, gap.value.isGap) (rest : List Char) :
    Span.sources (dropGaps (lex (Span.sources gaps ++ rest))) <:+ rest := by
  induction gaps with
  | nil => exact sources_dropGaps_lex_isSuffix rest
  | cons gap gaps ih =>
      rw [List.forall_mem_cons] at hgaps
      have hbehind : lex (Span.sources gaps) = gaps := lex_sources_tail hlex
      rw [Span.sources_cons, List.append_assoc]
      by_cases hlast : gaps = []
      · subst hlast
        change Span.sources (dropGaps (lex (gap.source ++ rest))) <:+ rest
        rcases forms_of_isGap hlex hgaps.1 with hspaces | ⟨body, rfl, hbody, -⟩
        · rw [dropGaps_lex_spaces hspaces]
          exact sources_dropGaps_lex_isSuffix rest
        · exact sources_dropGaps_lex_comment hbody rest
      · rw [dropGaps_lex_closed_gap hlex hgaps.1 (fun hnil => absurd hnil hlast)]
        exact ih hbehind hgaps.2

end Gaps

end ThemeSheet

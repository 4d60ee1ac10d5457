import ThemeSheet.Proofs.Truncation
import ThemeSheet.Proofs.ValueRows

/-!
# Passages of a rule

The tokens of a rule fall into passages without being read: its selectors
stand between commas in front of the block, and in the block each value goes
from a colon to the token that ends it.  A rule that was accepted has one
selector for each passage in front, and one declaration for each value.
-/

namespace ThemeSheet

/-- The tokens of the selectors in front of a block. -/
def selectorRows (lexemes : List Lexeme) : List (List Lexeme) :=
  (lexemes.takeWhile (fun lexeme => lexeme.value ≠ .opening .curly)).splitOnP
    (fun lexeme => lexeme.value = .comma)

/-- The tokens behind the brace that opens a block. -/
def blockTokens (lexemes : List Lexeme) : List Lexeme :=
  (lexemes.dropWhile (fun lexeme => lexeme.value ≠ .opening .curly)).tail

/-- The tokens of the values in a block, each behind a name and a colon. -/
def valueRows (lexemes : List Lexeme) : List (List Lexeme) :=
  match _hbody : dropGaps lexemes with
  | [] => []
  | lexeme :: rest =>
      match lexeme.value with
      | .semicolon => valueRows rest
      | .ident _ =>
          let row := takeValue [] (dropGaps rest).tail
          row :: valueRows ((dropGaps rest).tail.drop row.length)
      | _ => []
termination_by lexemes.length
decreasing_by
  all_goals
    have hbody := (dropGaps_isSuffix lexemes).length_le
    simp only [_hbody, List.length_cons] at hbody
  · omega
  · have hgaps := (dropGaps_isSuffix rest).length_le
    simp only [List.length_drop, List.length_tail]
    omega

namespace Site

variable (site : Site) (css : String)

def tokens : List Lexeme := lex (site.source css.toList)

def selectorRows : List (List Lexeme) := ThemeSheet.selectorRows (site.tokens css)

def valueRows : List (List Lexeme) :=
  ThemeSheet.valueRows (blockTokens (site.tokens css))

end Site

/-! ## Selectors -/

/-- The text of a selector behind one more of its tokens. -/
def addToken (selector : List Char) : Token → List Char
  | .comment => selector
  | .whitespace => addGap selector
  | token => selector ++ token.selectorText?.getD []

def rowText (selector : List Char) (row : List Lexeme) : List Char :=
  row.foldl (fun selector lexeme => addToken selector lexeme.value) selector

/-- The selectors of some rows, the first of which goes on from a text. -/
def rowSelectors (selector : List Char) : List (List Lexeme) → List String
  | [] => []
  | row :: rows =>
      String.ofList (trimBlank (rowText selector row)) :: rowSelectors [] rows

/-- Whether a token may stand in a selector. -/
def Token.isInSelector (token : Token) : Bool :=
  token.isGap || token.selectorText?.isSome

section Selectors

variable {selector text : List Char} {mark lexemes rest body left : List Lexeme}
variable {lexeme brace : Lexeme} {selectors : List String}

theorem rowSelectors_modifyHead (selector : List Char) (lexeme : Lexeme)
    (rows : List (List Lexeme)) :
    rowSelectors selector (rows.modifyHead (lexeme :: ·)) =
      rowSelectors (addToken selector lexeme.value) rows := by
  cases rows with
  | nil => rfl
  | cons row rows => rfl

theorem rowSelectors_nil_eq_map (rows : List (List Lexeme)) :
    rowSelectors [] rows =
      rows.map (fun row => String.ofList (trimBlank (rowText [] row))) := by
  induction rows with
  | nil => rfl
  | cons row rows ih => rw [rowSelectors, ih, List.map_cons]

theorem addToken_of_selectorText? {token : Token}
    (htext : token.selectorText? = some text) (selector : List Char) :
    addToken selector token = selector ++ text := by
  cases token with
  | comment | whitespace => cases htext
  | _ => simp only [addToken, htext, Option.getD_some]

theorem isInSelector_of_selectorText? {token : Token}
    (htext : token.selectorText? = some text) : token.isInSelector := by
  simp [Token.isInSelector, htext]

theorem ne_of_isInSelector {token : Token} (hin : token.isInSelector) :
    token ≠ .opening .curly ∧ token ≠ .comma := by
  constructor <;> rintro rfl <;> cases hin

theorem selectorRows_of_opening (hvalue : lexeme.value = .opening .curly)
    (rest : List Lexeme) : selectorRows (lexeme :: rest) = [[]] := by
  rw [selectorRows, List.takeWhile_cons_of_neg (by simp [hvalue]), List.splitOnP_nil]

theorem selectorRows_of_comma (hvalue : lexeme.value = .comma) (rest : List Lexeme) :
    selectorRows (lexeme :: rest) = [] :: selectorRows rest := by
  rw [selectorRows, List.takeWhile_cons_of_pos (by simp [hvalue]),
    List.splitOnP_cons_eq_if_modifyHead, if_pos (by simp [hvalue])]
  rfl

theorem selectorRows_of_isInSelector (hin : lexeme.value.isInSelector)
    (rest : List Lexeme) :
    selectorRows (lexeme :: rest) = (selectorRows rest).modifyHead (lexeme :: ·) := by
  obtain ⟨hopening, hcomma⟩ := ne_of_isInSelector hin
  rw [selectorRows, List.takeWhile_cons_of_pos (by simpa using hopening),
    List.splitOnP_cons_eq_if_modifyHead, if_neg (by simpa using hcomma)]
  rfl

theorem mem_of_mem_selectorRows {row : List Lexeme} (hrow : row ∈ selectorRows lexemes)
    (hlexeme : lexeme ∈ row) : lexeme ∈ lexemes := by
  have hheader := (exists_mem_splitOnP_iff.mp ⟨row, hrow, hlexeme⟩).1
  exact (List.takeWhile_prefix _).mem hheader

theorem eq_of_closeSelector {closed : String}
    (hclose : closeSelector selector mark = .ok closed) :
    closed = String.ofList (trimBlank selector) := by
  unfold closeSelector at hclose
  split at hclose
  next => cases hclose
  next =>
    rw [Except.ok.injEq] at hclose
    exact hclose.symm

/-- A selector list is read row by row; the text in front belongs to the first. -/
theorem eq_rowSelectors_of_readSelectors
    (hread : readSelectors selector mark lexemes = .ok (selectors, left)) :
    selectors = rowSelectors selector (selectorRows lexemes) := by
  fun_induction readSelectors selector mark lexemes generalizing selectors with
  | case1 selector mark =>
      obtain ⟨last, hclose, heq⟩ := exists_of_map_eq_ok hread
      cases heq
      rw [eq_of_closeSelector hclose]
      rfl
  | case2 selector mark lexeme rest hvalue =>
      obtain ⟨last, hclose, heq⟩ := exists_of_map_eq_ok hread
      cases heq
      rw [eq_of_closeSelector hclose, selectorRows_of_opening hvalue]
      rfl
  | case3 selector mark lexeme rest hvalue ih =>
      have hin : lexeme.value.isInSelector := by rw [hvalue]; rfl
      rw [selectorRows_of_isInSelector hin, rowSelectors_modifyHead, hvalue]
      exact ih hread
  | case4 selector mark lexeme rest hvalue ih =>
      have hin : lexeme.value.isInSelector := by rw [hvalue]; rfl
      rw [selectorRows_of_isInSelector hin, rowSelectors_modifyHead, hvalue]
      exact ih hread
  | case5 selector mark lexeme rest hvalue ih =>
      obtain ⟨closed, hclose, hothers⟩ := exists_of_bind_eq_ok hread
      obtain ⟨⟨others, after⟩, hrest, heq⟩ := exists_of_bind_eq_ok hothers
      cases heq
      rw [selectorRows_of_comma hvalue, eq_of_closeSelector hclose, ih hrest]
      rfl
  | case6 selector mark lexeme rest _ _ _ _ text htext ih =>
      have hin := isInSelector_of_selectorText? htext
      rw [selectorRows_of_isInSelector hin, rowSelectors_modifyHead,
        addToken_of_selectorText? htext]
      exact ih hread
  | case7 => cases hread

theorem exists_header_of_readSelectors
    (hread : readSelectors selector mark lexemes = .ok (selectors, left)) :
    ∃ header, lexemes = header ++ left ∧
      (∀ lexeme ∈ header, lexeme.value = .comma ∨ lexeme.value.isInSelector) ∧
      ∀ lexeme ∈ left.head?, lexeme.value = .opening .curly := by
  fun_induction readSelectors selector mark lexemes generalizing selectors with
  | case1 selector mark =>
      obtain ⟨last, -, heq⟩ := exists_of_map_eq_ok hread
      cases heq
      exact ⟨[], rfl, by simp, by simp⟩
  | case2 selector mark lexeme rest hvalue =>
      obtain ⟨last, -, heq⟩ := exists_of_map_eq_ok hread
      cases heq
      exact ⟨[], rfl, by simp, by simpa using hvalue⟩
  | case3 selector mark lexeme rest hvalue ih | case4 selector mark lexeme rest hvalue ih =>
      obtain ⟨header, rfl, hheader, hleft⟩ := ih hread
      have hin : lexeme.value.isInSelector := by rw [hvalue]; rfl
      exact ⟨lexeme :: header, rfl, List.forall_mem_cons.mpr ⟨.inr hin, hheader⟩, hleft⟩
  | case5 selector mark lexeme rest hvalue ih =>
      obtain ⟨closed, -, hothers⟩ := exists_of_bind_eq_ok hread
      obtain ⟨⟨others, after⟩, hrest, heq⟩ := exists_of_bind_eq_ok hothers
      cases heq
      obtain ⟨header, rfl, hheader, hleft⟩ := ih hrest
      exact ⟨lexeme :: header, rfl, List.forall_mem_cons.mpr ⟨.inl hvalue, hheader⟩, hleft⟩
  | case6 selector mark lexeme rest _ _ _ _ text htext ih =>
      obtain ⟨header, rfl, hheader, hleft⟩ := ih hread
      have hin := isInSelector_of_selectorText? htext
      exact ⟨lexeme :: header, rfl, List.forall_mem_cons.mpr ⟨.inr hin, hheader⟩, hleft⟩
  | case7 => cases hread

/-- Selectors end at the first brace that opens, and hold what they may. -/
theorem blockTokens_of_readSelectors
    (hread : readSelectors selector mark lexemes = .ok (selectors, brace :: body)) :
    blockTokens lexemes = body ∧
      ∀ row ∈ selectorRows lexemes, ∀ lexeme ∈ row, lexeme.value.isInSelector := by
  obtain ⟨header, rfl, hheader, hbrace⟩ := exists_header_of_readSelectors hread
  have hopens := hbrace brace rfl
  have hnone : ∀ lexeme ∈ header, decide (lexeme.value ≠ .opening .curly) := by
    intro lexeme hlexeme
    rcases hheader lexeme hlexeme with hcomma | hin
    · simp [hcomma]
    · simpa using (ne_of_isInSelector hin).1
  constructor
  · rw [blockTokens, List.dropWhile_append_of_pos hnone,
      List.dropWhile_cons_of_neg (by simp [hopens]), List.tail_cons]
  · intro row hrow lexeme hlexeme
    rw [selectorRows, List.takeWhile_append_of_pos hnone,
      List.takeWhile_cons_of_neg (by simp [hopens]), List.append_nil] at hrow
    obtain ⟨hmem, hcomma⟩ := exists_mem_splitOnP_iff.mp ⟨row, hrow, hlexeme⟩
    exact (hheader lexeme hmem).resolve_left (by simpa using hcomma)

end Selectors

/-! ## Values -/

section Values

variable {lexemes rest left : List Lexeme} {lexeme : Lexeme}
variable {declarations : List Declaration}

theorem valueRows_of_nil (hbody : dropGaps lexemes = []) : valueRows lexemes = [] := by
  rw [valueRows]
  split
  next => rfl
  next hcons =>
    rw [hbody] at hcons
    cases hcons

theorem valueRows_of_cons (hbody : dropGaps lexemes = lexeme :: rest) :
    valueRows lexemes =
      match lexeme.value with
      | .semicolon => valueRows rest
      | .ident _ =>
          takeValue [] (dropGaps rest).tail ::
            valueRows ((dropGaps rest).tail.drop
              (takeValue [] (dropGaps rest).tail).length)
      | _ => [] := by
  rw [valueRows]
  split
  next hnil =>
    rw [hbody] at hnil
    cases hnil
  next first more hcons =>
    rw [hbody, List.cons.injEq] at hcons
    obtain ⟨rfl, rfl⟩ := hcons
    rfl

/-- A declaration is read from each value, and from nothing else. -/
theorem forall₂_valueRows_of_readDeclarations
    (hread : readDeclarations lexemes = .ok (declarations, left)) :
    List.Forall₂ (fun declaration row => ∃ components, ValueRow false row components ∧
      declaration.value = String.ofList (valueText components))
      declarations (valueRows lexemes) := by
  fun_induction readDeclarations lexemes generalizing declarations with
  | case1 lexemes hbody =>
      cases hread
      rw [valueRows_of_nil hbody]
      exact .nil
  | case2 lexemes lexeme rest hbody hvalue =>
      cases hread
      rw [valueRows_of_cons hbody, hvalue]
      exact .nil
  | case3 lexemes lexeme rest hbody hvalue ih =>
      rw [valueRows_of_cons hbody, hvalue]
      exact ih hread
  | case6 lexemes lexeme rest hbody name hname colonSource source hcolon
      components after hvalue hnonempty ih =>
      obtain ⟨⟨others, behind⟩, hrest, heq⟩ := exists_of_map_eq_ok hread
      cases heq
      obtain ⟨row, rfl, hrow, hafter⟩ := readComponents_eq_ok_iff.mp hvalue
      rw [valueRows_of_cons hbody, hname, hcolon, List.tail_cons,
        hrow.takeValue_append hafter, List.drop_left]
      exact .cons ⟨components, hrow, rfl⟩ (ih hrest)
  | case4 | case5 | case7 | case8 => cases hread

end Values

/-! ## Rules -/

section Sites

variable {css : String} {site : Site}

theorem exists_block_of_mem_sites (hmem : site ∈ sites css) :
    ∃ brace body closing left,
      readSelectors [] (site.tokens css) (site.tokens css) =
        .ok (site.rule.selectors, brace :: body) ∧
      readDeclarations body = .ok (site.rule.declarations, closing :: left) := by
  -- the tokens of a site are read as one rule, so they begin with that rule
  obtain ⟨-, -, hbegins, halone⟩ := isIn_of_mem_sites hmem
  have hblock : lex (site.source css.toList) ≠ [] := by
    intro hnil
    rw [hnil, readRules_of_gaps rfl] at halone
    cases halone
  rw [readRules_of_block hbegins hblock] at halone
  obtain ⟨⟨rule, left⟩, hrule, hothers⟩ := exists_of_bind_eq_ok halone
  obtain ⟨others, -, heq⟩ := exists_of_map_eq_ok hothers
  cases heq
  obtain ⟨brace, body, closing, hselectors, hdeclarations⟩ := exists_block_of_readRule hrule
  exact ⟨brace, body, closing, left, hselectors, hdeclarations⟩

theorem selectors_of_mem_sites (hmem : site ∈ sites css) :
    site.rule.selectors = (site.selectorRows css).map
        (fun row => String.ofList (trimBlank (rowText [] row))) ∧
      ∀ row ∈ site.selectorRows css, ∀ lexeme ∈ row, lexeme.value.isInSelector := by
  obtain ⟨brace, body, closing, left, hselectors, -⟩ := exists_block_of_mem_sites hmem
  refine ⟨?_, (blockTokens_of_readSelectors hselectors).2⟩
  rw [eq_rowSelectors_of_readSelectors hselectors, rowSelectors_nil_eq_map]
  rfl

theorem values_of_mem_sites (hmem : site ∈ sites css) :
    List.Forall₂ (fun declaration row => ∃ components, ValueRow false row components ∧
      declaration.value = String.ofList (valueText components))
      site.rule.declarations (site.valueRows css) := by
  obtain ⟨brace, body, closing, left, hselectors, hdeclarations⟩ :=
    exists_block_of_mem_sites hmem
  rw [Site.valueRows, (blockTokens_of_readSelectors hselectors).1]
  exact forall₂_valueRows_of_readDeclarations hdeclarations

end Sites

end ThemeSheet

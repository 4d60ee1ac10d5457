import ThemeSheet.Proofs.Concatenation
import ThemeSheet.Proofs.Joints

/-!
# Room around joints

Comments can be put in front of a joint of a stylesheet, and comments and spaces
behind it: the text is read as the same rules.  A joint is a mark, so the tokens in
front of it stay as they are, also with a slash where the mark was, and what is put
in becomes gaps.
-/

namespace ThemeSheet

/-- A comment that is closed, and not before its end. -/
structure ClosedComment where
  inner : List Char
  not_closes : ¬ ['*', '/'] <:+: inner

def ClosedComment.chars (comment : ClosedComment) : List Char :=
  '/' :: '*' :: (comment.inner ++ ['*', '/'])

/-- What may be put between tokens. -/
inductive Filler where
  | space (c : Char) (hspace : isSpace c)
  | comment (comment : ClosedComment)

def Filler.chars : Filler → List Char
  | space c _ => [c]
  | comment closed => closed.chars

def commentsText (comments : List ClosedComment) : List Char :=
  comments.flatMap ClosedComment.chars

def fillersText (fillers : List Filler) : List Char := fillers.flatMap Filler.chars

section Texts

variable {text rest inner : List Char} {front back : List Lexeme} {joint : Lexeme}

theorem commentWidth_closed (hinner : ¬ ['*', '/'] <:+: inner) (rest : List Char) :
    commentWidth (inner ++ '*' :: '/' :: rest) = inner.length + 2 := by
  induction inner with
  | nil => rfl
  | cons c inner ih =>
      have hrest : ¬ ['*', '/'] <:+: inner := fun hin =>
        hinner (hin.trans (List.suffix_cons c inner).isInfix)
      rw [List.cons_append, commentWidth.eq_def]
      split
      next behind hcloses =>
        obtain ⟨rfl, hbehind⟩ := List.cons.inj hcloses
        cases inner with
        | nil => cases hbehind
        | cons d inner =>
            obtain ⟨rfl, -⟩ := List.cons.inj hbehind
            exact absurd ⟨[], inner, rfl⟩ hinner
      next first behind hopen heq =>
        obtain ⟨rfl, rfl⟩ := List.cons.inj heq
        rw [ih hrest, List.length_cons]
      next hnil => cases hnil

theorem lex_comment_append (comment : ClosedComment) (rest : List Char) :
    lex (comment.chars ++ rest) = ⟨.comment, comment.chars⟩ :: lex rest := by
  have hread : Token.read '/' ('*' :: (comment.inner ++ ['*', '/']) ++ rest) =
      (.comment, ('*' :: (comment.inner ++ ['*', '/'])).length) := by
    have hwidth := commentWidth_closed comment.not_closes rest
    rw [List.cons_append, Token.read_comment, List.append_assoc, List.cons_append,
      List.singleton_append, hwidth, Nat.add_comm]
    simp
  exact lex_cons_append hread

def commentLexemes (comments : List ClosedComment) : List Lexeme :=
  comments.map (fun comment => ⟨.comment, comment.chars⟩)

theorem lex_comments_append (comments : List ClosedComment) (rest : List Char) :
    lex (commentsText comments ++ rest) = commentLexemes comments ++ lex rest := by
  induction comments with
  | nil => rfl
  | cons comment comments ih =>
      rw [commentsText, List.flatMap_cons, List.append_assoc, lex_comment_append,
        ← commentsText, ih]
      rfl

theorem dropGaps_lex_fillers_append (fillers : List Filler) (rest : List Char) :
    dropGaps (lex (fillersText fillers ++ rest)) = dropGaps (lex rest) := by
  induction fillers with
  | nil => rfl
  | cons filler fillers ih =>
      rw [fillersText, List.flatMap_cons, List.append_assoc, ← fillersText, ← ih]
      cases filler with
      | space c hspace => exact dropGaps_lex_space hspace _
      | comment comment =>
          rw [Filler.chars, lex_comment_append, dropGaps_cons_of_isGap rfl]

theorem exists_mark?_of_isJoint {spot : Spot} {token : Token} (hjoint : isJoint spot token) :
    ∃ mark, token.mark? = some mark := by
  cases spot with
  | selectors =>
      simp only [isJoint, decide_eq_true_eq] at hjoint
      rcases hjoint with rfl | rfl <;> exact ⟨_, rfl⟩
  | name =>
      simp only [isJoint, decide_eq_true_eq] at hjoint
      rcases hjoint with rfl | rfl | rfl <;> exact ⟨_, rfl⟩
  | value stack =>
      cases stack with
      | nil =>
          simp only [isJoint, decide_eq_true_eq] at hjoint
          rcases hjoint with rfl | rfl <;> exact ⟨_, rfl⟩
      | cons => cases hjoint

/-- A comment may stand where a mark did, and so may a mark. -/
theorem swaps_comments {token : Token} {mark : Char} (hmark : token.mark? = some mark)
    (comments : List ClosedComment) (front u rest : List Char) :
    Swaps front (mark :: u) (commentsText comments ++ mark :: rest) := by
  have hedge := Token.mem_edges_of_mark? hmark
  have hspace := Token.not_isSpace_of_mark? hmark
  cases comments with
  | nil => exact swaps_cons hedge hedge hspace hspace id front u rest
  | cons comment comments =>
      exact swaps_cons hedge (by decide) hspace rfl
        (fun hclosing => absurd hclosing (by decide)) front u _

/-- The tokens in front of a joint stay, comments in front of it are tokens, and what is
put behind it changes at most gaps. -/
theorem exists_lex_spaced {spot : Spot} (hlex : lex text = front ++ joint :: back)
    (hjoint : isJoint spot joint.value) (comments : List ClosedComment)
    (fillers : List Filler) :
    ∃ others,
      lex (Span.sources front ++ (commentsText comments ++
        (joint.source ++ (fillersText fillers ++ Span.sources back)))) =
        front ++ (commentLexemes comments ++ joint :: others) ∧
      dropGaps others = dropGaps back := by
  obtain ⟨mark, hmark⟩ := exists_mark?_of_isJoint hjoint
  have hsource := source_of_mark? (lex_sources hlex) hmark
  have hback : lex (Span.sources back) = back := lex_sources_tail (lex_sources hlex)
  refine ⟨lex (fillersText fillers ++ Span.sources back), ?_, ?_⟩
  · rw [hsource, List.singleton_append,
      lex_swap_mark hlex hmark (swaps_comments hmark comments _ _ _), lex_comments_append,
      lex_mark hmark, ← hsource]
  · rw [dropGaps_lex_fillers_append, hback]

theorem Relaid.append {lexemes others : List Lexeme} (front : List Lexeme) {spot : Spot}
    (hrelaid : Relaid (front.foldl (fun spot lexeme => spot.past lexeme.value) spot)
      lexemes others) :
    Relaid spot (front ++ lexemes) (front ++ others) := by
  induction front generalizing spot with
  | nil => exact hrelaid
  | cons lexeme front ih => exact .cons (ih hrelaid)

end Texts

/-- The joints of an accepted stylesheet are those of its rules, and semicolons.  With
comments in front of a joint, and comments and spaces behind it, the text is read as
the same rules. -/
theorem readStylesheet_spaced {css : String} {rules : List Rule}
    (hread : readStylesheet css = .ok rules) :
    (joints .selectors (lex css.toList)).filter (· ≠ .semicolon) =
        rules.flatMap Rule.joints ∧
      ∀ (front back : List Lexeme) (joint : Lexeme),
        lex css.toList = front ++ joint :: back →
        isJoint (.behind front) joint.value →
        css.toList = Span.sources front ++ (joint.source ++ Span.sources back) ∧
        ∀ (comments : List ClosedComment) (fillers : List Filler),
          readStylesheet (String.ofList (Span.sources front ++ (commentsText comments ++
            (joint.source ++ (fillersText fillers ++ Span.sources back))))) = .ok rules := by
  rw [readStylesheet_eq_ok_iff] at hread
  refine ⟨joints_of_readRules hread, ?_⟩
  intro front back joint hlex hjoint
  refine ⟨eq_sources_append hlex, ?_⟩
  intro comments fillers
  obtain ⟨others, hspaced, hothers⟩ := exists_lex_spaced hlex hjoint comments fillers
  have hcomments : ∀ comment ∈ commentLexemes comments, comment.value = .comment := by
    intro comment hcomment
    obtain ⟨closed, -, rfl⟩ := List.mem_map.mp hcomment
    rfl
  have hrelaid : Relaid .selectors (lex css.toList)
      (front ++ (commentLexemes comments ++ joint :: others)) := by
    rw [hlex]
    exact .append front (.here hjoint hcomments hothers)
  rw [readStylesheet_eq_ok_iff, String.toList_ofList, hspaced]
  exact readRules_alike (.inr hrelaid) hread

/-- A comment with what would be a joint outside of it. -/
def remark : ClosedComment := ⟨[';'], by decide⟩

theorem readStylesheet_spaced_commentedSheet :
    readStylesheet commentedSheet = .ok commentedRules ∧
      readStylesheet "A\x7bb/*;*/:\n/*;*/c\x7d/**/" = .ok commentedRules := by
  obtain ⟨-, hjoints⟩ := readStylesheet_spaced readStylesheet_commentedSheet
  have hlex : lex commentedSheet.toList =
      [⟨.ident ['A'], ['A']⟩, ⟨.opening .curly, ['\x7b']⟩, ⟨.ident ['b'], ['b']⟩] ++
        ⟨.colon, [':']⟩ :: [⟨.ident ['c'], ['c']⟩, ⟨.closing .curly, ['\x7d']⟩,
          ⟨.comment, ['/', '*', '*', '/']⟩] :=
    lex_commentedSheet
  obtain ⟨-, hspaced⟩ := hjoints _ _ _ hlex rfl
  exact ⟨readStylesheet_commentedSheet,
    hspaced [remark] [.space '\n' rfl, .comment remark]⟩

end ThemeSheet

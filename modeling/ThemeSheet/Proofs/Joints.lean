import ThemeSheet.Proofs.ValueRows

/-!
# Joints

The marks that hold a stylesheet together are its joints: commas between selectors,
the braces of blocks, colons behind names and semicolons behind values.  A mark is a
joint by the spot where it stands, which the tokens in front of it tell.  Comments in
front of a joint and gaps behind it are nothing to the reader.
-/

namespace ThemeSheet

/-- Where the tokens in front of a token leave a reader. -/
inductive Spot where
  | selectors
  /-- In a block, where a name may stand, or its colon. -/
  | name
  /-- In a value, with the brackets that are open. -/
  | value (stack : List Bracket)
deriving DecidableEq, Repr

/-- Whether a token is a joint where it stands.  What stands in brackets is none. -/
def isJoint : Spot → Token → Bool
  | .selectors, token => token = .comma ∨ token = .opening .curly
  | .name, token => token = .colon ∨ token = .semicolon ∨ token = .closing .curly
  | .value [], token => token = .semicolon ∨ token = .closing .curly
  | .value (_ :: _), _ => false

namespace Spot

/-- The spot behind a token.  Only joints lead from one kind of spot to another. -/
def past : Spot → Token → Spot
  | selectors, token => if token = .opening .curly then name else selectors
  | name, token =>
      if token = .colon then value []
      else if token = .closing .curly then selectors
      else name
  | value [], token =>
      if token = .semicolon then name
      else if token = .closing .curly then selectors
      else value (token.nest [])
  | value (bracket :: stack), token => value (token.nest (bracket :: stack))

/-- The spot behind some tokens from the beginning of a stylesheet. -/
def behind (lexemes : List Lexeme) : Spot :=
  lexemes.foldl (fun spot lexeme => spot.past lexeme.value) selectors

end Spot

section Spots

variable {spot : Spot} {token : Token}

theorem past_of_isGap (hgap : token.isGap) (spot : Spot) : spot.past token = spot := by
  cases token with
  | whitespace | comment => rcases spot with _ | _ | (_ | _) <;> rfl
  | _ => cases hgap

theorem not_isGap_of_isJoint (hjoint : isJoint spot token) : ¬token.isGap := by
  intro hgap
  cases token with
  | whitespace | comment => rcases spot with _ | _ | (_ | _) <;> cases hjoint
  | _ => cases hgap

theorem past_selectors_of_selectorText? {text : List Char}
    (htext : token.selectorText? = some text) :
    ¬isJoint .selectors token ∧ Spot.past .selectors token = .selectors := by
  cases token with
  | comma | opening bracket => cases htext
  | _ => simp [isJoint, Spot.past]

theorem isJoint_value_iff : isJoint (.value []) token ↔ token.endsValue := by
  cases token with
  | closing bracket => cases bracket <;> simp [isJoint, Token.endsValue]
  | _ => simp [isJoint, Token.endsValue]

/-- What ends a value ends the declaration: it leads to where it leads behind a name. -/
theorem isJoint_name_of_endsValue (hends : token.endsValue) :
    isJoint .name token ∧ Spot.past .name token = Spot.past (.value []) token := by
  cases token with
  | semicolon => exact ⟨rfl, rfl⟩
  | closing bracket =>
      cases bracket with
      | curly => exact ⟨rfl, rfl⟩
      | _ => cases hends
  | _ => cases hends

theorem past_value_of_not_endsValue (hends : ¬token.endsValue) :
    Spot.past (.value []) token = .value (token.nest []) := by
  rw [← isJoint_value_iff] at hends
  simp only [isJoint, decide_eq_true_eq, not_or] at hends
  rw [Spot.past, if_neg hends.1, if_neg hends.2]

end Spots

/-! ## Other gaps at a joint -/

/-- Rows that are the same but for comments in front of one joint and for the gaps
behind it. -/
inductive Relaid : Spot → List Lexeme → List Lexeme → Prop where
  | here {spot : Spot} {joint : Lexeme} {comments back others : List Lexeme}
      (hjoint : isJoint spot joint.value)
      (hcomments : ∀ comment ∈ comments, comment.value = .comment)
      (hback : dropGaps others = dropGaps back) :
      Relaid spot (joint :: back) (comments ++ joint :: others)
  | cons {spot : Spot} {lexeme : Lexeme} {rest others : List Lexeme}
      (hrest : Relaid (spot.past lexeme.value) rest others) :
      Relaid spot (lexeme :: rest) (lexeme :: others)

/-- What is left behind a joint: the other gaps stand here or further on. -/
def Alike (spot : Spot) (lexemes others : List Lexeme) : Prop :=
  dropGaps others = dropGaps lexemes ∨ Relaid spot lexemes others

section Relaid

variable {spot : Spot} {lexeme : Lexeme} {lexemes others comments rest : List Lexeme}

theorem Relaid.of_past (hjoint : isJoint spot lexeme.value)
    (halike : Alike (spot.past lexeme.value) rest others) :
    Relaid spot (lexeme :: rest) (lexeme :: others) := by
  rcases halike with hgaps | hrelaid
  · have hhere := Relaid.here hjoint (List.forall_mem_nil _) hgaps
    exact hhere
  · exact .cons hrelaid

/-- The first token that is no gap stays the first, and it is no other. -/
theorem Relaid.exists_of_dropGaps (hrelaid : Relaid spot lexemes others)
    (hgaps : dropGaps lexemes = lexeme :: rest) :
    ∃ behind, dropGaps others = lexeme :: behind ∧
      Relaid spot (lexeme :: rest) (lexeme :: behind) ∧
      Alike (spot.past lexeme.value) rest behind := by
  induction hrelaid with
  | @here spot joint comments back others hjoint hcomments hback =>
      have hgap := not_isGap_of_isJoint hjoint
      rw [dropGaps_cons_of_not_isGap hgap, List.cons.injEq] at hgaps
      obtain ⟨rfl, rfl⟩ := hgaps
      refine ⟨others, ?_, .of_past hjoint (.inl hback), .inl hback⟩
      rw [dropGaps_append (isGap_of_comments hcomments), dropGaps_cons_of_not_isGap hgap]
  | @cons spot first back others hrest ih =>
      by_cases hgap : first.value.isGap
      · rw [dropGaps_cons_of_isGap hgap] at hgaps ⊢
        rw [past_of_isGap hgap] at ih
        exact ih hgaps
      · rw [dropGaps_cons_of_not_isGap hgap, List.cons.injEq] at hgaps
        obtain ⟨rfl, rfl⟩ := hgaps
        exact ⟨others, dropGaps_cons_of_not_isGap hgap others, .cons hrest, .inr hrest⟩

theorem Relaid.dropGaps_ne_nil (hrelaid : Relaid spot lexemes others) :
    dropGaps lexemes ≠ [] := by
  induction hrelaid with
  | here hjoint =>
      rw [dropGaps_cons_of_not_isGap (not_isGap_of_isJoint hjoint)]
      exact List.cons_ne_nil _ _
  | @cons spot lexeme rest others hrest ih =>
      by_cases hgap : lexeme.value.isGap
      · rwa [dropGaps_cons_of_isGap hgap]
      · rw [dropGaps_cons_of_not_isGap hgap]
        exact List.cons_ne_nil _ _

theorem Alike.exists_of_dropGaps (halike : Alike spot lexemes others)
    (hgaps : dropGaps lexemes = lexeme :: rest) :
    ∃ behind, dropGaps others = lexeme :: behind ∧
      Alike (spot.past lexeme.value) rest behind := by
  rcases halike with hsame | hrelaid
  · exact ⟨rest, hsame.trans hgaps, .inl rfl⟩
  · obtain ⟨behind, hothers, -, hbehind⟩ := hrelaid.exists_of_dropGaps hgaps
    exact ⟨behind, hothers, hbehind⟩

end Relaid

/-! ## Selectors -/

section Selectors

variable {selector : List Char} {mark lexemes others comments body left : List Lexeme}
variable {selectors : List String} {brace : Lexeme}

theorem readSelectors_comments_append
    (hcomments : ∀ comment ∈ comments, comment.value = .comment)
    (selector : List Char) (mark rest : List Lexeme) :
    readSelectors selector mark (comments ++ rest) = readSelectors selector mark rest := by
  induction comments with
  | nil => rfl
  | cons comment comments ih =>
      rw [List.forall_mem_cons] at hcomments
      rw [List.cons_append, readSelectors, hcomments.1]
      exact ih hcomments.2

/-- Where an error would point is nothing to a reader that succeeds. -/
theorem readSelectors_of_mark
    (hread : readSelectors selector mark lexemes = .ok (selectors, left))
    (other : List Lexeme) :
    readSelectors selector other lexemes = .ok (selectors, left) := by
  obtain ⟨taken, rfl, hother⟩ := readSelectors_append hread
  exact hother other left rfl

/-- A selector does not begin with gaps. -/
theorem readSelectors_dropGaps_iff (mark other : List Lexeme) :
    readSelectors [] other (dropGaps lexemes) = .ok (selectors, left) ↔
      readSelectors [] mark lexemes = .ok (selectors, left) := by
  induction lexemes generalizing mark with
  | nil => exact ⟨(readSelectors_of_mark · mark), (readSelectors_of_mark · other)⟩
  | cons lexeme rest ih =>
      rcases lexeme with ⟨token, source⟩
      cases token with
      | comment => exact ih mark
      | whitespace => exact ih rest
      | _ => exact ⟨(readSelectors_of_mark · mark), (readSelectors_of_mark · other)⟩

theorem readSelectors_relaid (hrelaid : Relaid .selectors lexemes others)
    (hread : readSelectors selector mark lexemes = .ok (selectors, brace :: body))
    (other : List Lexeme) :
    ∃ behind, readSelectors selector other others = .ok (selectors, brace :: behind) ∧
      Alike .name body behind := by
  fun_induction readSelectors selector mark lexemes
    generalizing selectors other others with
  | case1 => cases hrelaid
  | case2 selector mark lexeme rest hvalue =>
      obtain ⟨last, hclose, heq⟩ := exists_of_map_eq_ok hread
      cases heq
      rcases brace with ⟨token, source⟩
      obtain rfl : token = .opening .curly := hvalue
      have hopening : ∀ behind,
          readSelectors selector other (⟨.opening .curly, source⟩ :: behind) =
            .ok ([last], ⟨.opening .curly, source⟩ :: behind) := by
        intro behind
        rw [readSelectors_opening, closeSelector_of_ok hclose]
        rfl
      cases hrelaid with
      | @here _ _ _ _ behind hjoint hcomments hback =>
          refine ⟨behind, ?_, .inl hback⟩
          rw [readSelectors_comments_append hcomments, hopening]
      | @cons _ _ _ behind hrest => exact ⟨behind, hopening behind, .inr hrest⟩
  | case3 selector mark lexeme rest hvalue ih | case4 selector mark lexeme rest hvalue ih =>
      cases hrelaid with
      | here hjoint =>
          rw [hvalue] at hjoint
          cases hjoint
      | cons hrest =>
          rw [hvalue] at hrest
          rw [readSelectors, hvalue]
          exact ih hrest hread _
  | case5 selector mark lexeme rest hvalue ih =>
      obtain ⟨closed, hclose, hothers⟩ := exists_of_bind_eq_ok hread
      obtain ⟨⟨further, after⟩, hrest, heq⟩ := exists_of_bind_eq_ok hothers
      cases heq
      rcases lexeme with ⟨token, source⟩
      obtain rfl : token = .comma := hvalue
      have hclosed := closeSelector_of_ok hclose other
      cases hrelaid with
      | @here _ _ _ _ behind hjoint hcomments hback =>
          rw [← readSelectors_dropGaps_iff _ behind, ← hback,
            readSelectors_dropGaps_iff behind] at hrest
          refine ⟨body, ?_, .inl rfl⟩
          rw [readSelectors_comments_append hcomments]
          exact readSelectors_comma hclosed hrest
      | @cons _ _ _ behind hbehind =>
          obtain ⟨found, hfound, halike⟩ := ih hbehind hrest behind
          exact ⟨found, readSelectors_comma hclosed hfound, halike⟩
  | case6 selector mark lexeme rest _ _ _ _ text htext ih =>
      obtain ⟨hjoint, hpast⟩ := past_selectors_of_selectorText? htext
      cases hrelaid with
      | here hhere => exact absurd hhere hjoint
      | @cons _ _ _ behind hrest =>
          rw [hpast] at hrest
          rw [readSelectors_of_selectorText? htext]
          exact ih hrest hread behind
  | case7 => cases hread

end Selectors

/-! ## Values -/

section Values

variable {property : List Char} {spaced : Bool} {stack : List Bracket}
variable {lexemes others comments group after left : List Lexeme}
variable {components : List Component}

/-- No joint stands inside of a group. -/
theorem takeGroup_relaid (hrelaid : Relaid (.value stack) lexemes others)
    (hstack : stack ≠ []) (htake : takeGroup stack lexemes = some (group, after)) :
    ∃ behind, takeGroup stack others = some (group, behind) ∧
      Relaid (.value []) after behind := by
  induction lexemes generalizing stack others group with
  | nil => cases htake
  | cons lexeme rest ih =>
      obtain ⟨bracket, outer, rfl⟩ := List.exists_cons_of_ne_nil hstack
      cases hrelaid with
      | here hjoint => cases hjoint
      | @cons _ _ _ behind hrest =>
          simp only [takeGroup] at htake ⊢
          simp only [Spot.past] at hrest
          split at htake
          next hclosed =>
            cases htake
            rw [List.isEmpty_iff.mp hclosed] at hrest ⊢
            exact ⟨behind, rfl, hrest⟩
          next hopen =>
            obtain ⟨⟨inner, left⟩, hinner, heq⟩ := Option.map_eq_some_iff.mp htake
            cases heq
            obtain ⟨found, hfound, hafter⟩ := ih hrest (by simpa using hopen) hinner
            rw [if_neg hopen, hfound]
            exact ⟨found, rfl, hafter⟩

theorem readComponents_of_isGap {lexeme : Lexeme} (hgap : lexeme.value.isGap)
    (property : List Char) (spaced : Bool) (rest : List Lexeme) :
    readComponents property spaced (lexeme :: rest) =
      readComponents property (spaced || lexeme.value = .whitespace) rest := by
  obtain ⟨hends, hstray⟩ := classes_of_isGap hgap
  rw [readComponents, if_neg (by simp [hends]), if_neg (by simp [hstray]), if_pos hgap]

theorem readComponents_comments_append
    (hcomments : ∀ comment ∈ comments, comment.value = .comment)
    (property : List Char) (spaced : Bool) (rest : List Lexeme) :
    readComponents property spaced (comments ++ rest) =
      readComponents property spaced rest := by
  induction comments with
  | nil => rfl
  | cons comment comments ih =>
      rw [List.forall_mem_cons] at hcomments
      have hgap : comment.value.isGap := by rw [hcomments.1]; rfl
      rw [List.cons_append, readComponents_of_isGap hgap, hcomments.1, ← ih hcomments.2]
      simp

/-- A value is read the same, and what is left of the block is laid out anew. -/
theorem readComponents_relaid (hrelaid : Relaid (.value []) lexemes others)
    (hread : readComponents property spaced lexemes = .ok (components, left)) :
    ∃ behind, readComponents property spaced others = .ok (components, behind) ∧
      Relaid .name left behind := by
  fun_induction readComponents property spaced lexemes generalizing components others with
  | case1 => cases hrelaid
  | case2 spaced lexeme rest hends =>
      cases hread
      obtain ⟨hjoint, hpast⟩ := isJoint_name_of_endsValue hends
      have hstop : ∀ behind, readComponents property spaced (lexeme :: behind) =
          .ok ([], lexeme :: behind) := by
        intro behind
        rw [readComponents, if_pos hends]
      cases hrelaid with
      | @here _ _ _ _ behind _ hcomments hback =>
          refine ⟨lexeme :: behind, ?_, .of_past hjoint (.inl hback)⟩
          rw [readComponents_comments_append hcomments, hstop]
      | @cons _ _ _ behind hrest =>
          rw [← hpast] at hrest
          exact ⟨lexeme :: behind, hstop behind, .cons hrest⟩
  | case3 => cases hread
  | case4 spaced lexeme rest hends hstray hgap ih =>
      cases hrelaid with
      | here hjoint => exact absurd (isJoint_value_iff.mp hjoint) hends
      | cons hrest =>
          rw [past_of_isGap hgap] at hrest
          rw [readComponents_of_isGap hgap]
          exact ih hrest hread
  | case5 spaced lexeme rest hends hstray hgap hopens ih =>
      obtain ⟨⟨further, after⟩, hrest, heq⟩ := exists_of_map_eq_ok hread
      cases heq
      cases hrelaid with
      | here hjoint => exact absurd (isJoint_value_iff.mp hjoint) hends
      | cons hothers =>
          rw [past_value_of_not_endsValue hends, nest_nil_of_opens?_eq_none hopens] at hothers
          obtain ⟨behind, hbehind, hleft⟩ := ih hothers hrest
          refine ⟨behind, ?_, hleft⟩
          rw [readComponents, if_neg hends, if_neg hstray, if_neg hgap, hopens, hbehind]
          rfl
  | case6 => cases hread
  | case7 spaced lexeme rest hends hstray hgap bracket hopens group after hgroup ih =>
      obtain ⟨⟨further, left⟩, hrest, heq⟩ := exists_of_map_eq_ok hread
      cases heq
      cases hrelaid with
      | here hjoint => exact absurd (isJoint_value_iff.mp hjoint) hends
      | cons hothers =>
          rw [past_value_of_not_endsValue hends, nest_of_opens? hopens] at hothers
          obtain ⟨found, hfound, hafter⟩ :=
            takeGroup_relaid hothers (List.cons_ne_nil _ _) hgroup
          obtain ⟨behind, hbehind, hleft⟩ := ih hafter hrest
          exact ⟨behind, readComponents_of_group hends hstray hgap hopens hfound hbehind, hleft⟩

/-- The whitespace in front of the first component has no part in the text. -/
theorem valueText_cons (lexemes : List Lexeme) (components : List Component)
    (spaced other : Bool) :
    valueText (⟨spaced, lexemes⟩ :: components) =
      valueText (⟨other, lexemes⟩ :: components) := by
  cases components <;> rfl

theorem readComponents_of_spaced
    (hread : readComponents property spaced lexemes = .ok (components, left))
    (other : Bool) :
    ∃ found, readComponents property other lexemes = .ok (found, left) ∧
      valueText found = valueText components := by
  fun_induction readComponents property spaced lexemes generalizing components other with
  | case1 =>
      cases hread
      exact ⟨[], by rw [readComponents], rfl⟩
  | case2 spaced lexeme rest hends =>
      cases hread
      exact ⟨[], by rw [readComponents, if_pos hends], rfl⟩
  | case3 => cases hread
  | case4 spaced lexeme rest hends hstray hgap ih =>
      rw [readComponents_of_isGap hgap]
      exact ih hread _
  | case5 spaced lexeme rest hends hstray hgap hopens ih =>
      obtain ⟨⟨further, after⟩, hrest, heq⟩ := exists_of_map_eq_ok hread
      cases heq
      refine ⟨⟨other, [lexeme]⟩ :: further, ?_, valueText_cons _ _ _ _⟩
      rw [readComponents, if_neg hends, if_neg hstray, if_neg hgap, hopens, hrest]
      rfl
  | case6 => cases hread
  | case7 spaced lexeme rest hends hstray hgap bracket hopens group after hgroup ih =>
      obtain ⟨⟨further, behind⟩, hrest, heq⟩ := exists_of_map_eq_ok hread
      cases heq
      exact ⟨⟨other, lexeme :: group⟩ :: further,
        readComponents_of_group hends hstray hgap hopens hgroup hrest, valueText_cons _ _ _ _⟩

theorem exists_readComponents_dropGaps (property : List Char) (spaced : Bool)
    (lexemes : List Lexeme) :
    ∃ behind, readComponents property spaced lexemes =
      readComponents property behind (dropGaps lexemes) := by
  induction lexemes generalizing spaced with
  | nil => exact ⟨spaced, rfl⟩
  | cons lexeme rest ih =>
      by_cases hgap : lexeme.value.isGap
      · rw [readComponents_of_isGap hgap, dropGaps_cons_of_isGap hgap]
        exact ih _
      · exact ⟨spaced, by rw [dropGaps_cons_of_not_isGap hgap]⟩

/-- What stands behind a colon is read as the same text. -/
theorem readComponents_alike (halike : Alike (.value []) lexemes others)
    (hread : readComponents property spaced lexemes = .ok (components, left)) :
    ∃ found behind, readComponents property spaced others = .ok (found, behind) ∧
      valueText found = valueText components ∧ Alike .name left behind := by
  rcases halike with hgaps | hrelaid
  · obtain ⟨flag, hflag⟩ := exists_readComponents_dropGaps property spaced lexemes
    obtain ⟨other, hother⟩ := exists_readComponents_dropGaps property spaced others
    rw [hflag] at hread
    obtain ⟨found, hfound, htext⟩ := readComponents_of_spaced hread other
    exact ⟨found, left, by rw [hother, hgaps, hfound], htext, .inl rfl⟩
  · obtain ⟨behind, hbehind, hleft⟩ := readComponents_relaid hrelaid hread
    exact ⟨components, behind, hbehind, rfl, .inr hleft⟩

end Values

/-! ## Rules -/

section Rules

variable {lexemes others left : List Lexeme} {closing : Lexeme}
variable {declarations : List Declaration} {rule : Rule} {rules : List Rule}

theorem readDeclarations_alike (halike : Alike .name lexemes others)
    (hread : readDeclarations lexemes = .ok (declarations, closing :: left)) :
    ∃ behind, readDeclarations others = .ok (declarations, closing :: behind) ∧
      Alike .selectors left behind := by
  fun_induction readDeclarations lexemes generalizing declarations others with
  | case1 => cases hread
  | case2 lexemes lexeme rest hbody hvalue =>
      cases hread
      obtain ⟨behind, hothers, hbehind⟩ := halike.exists_of_dropGaps hbody
      rcases closing with ⟨token, source⟩
      obtain rfl : token = .closing .curly := hvalue
      exact ⟨behind, readDeclarations_of_closing hothers, hbehind⟩
  | case3 lexemes lexeme rest hbody hvalue ih =>
      obtain ⟨behind, hothers, hbehind⟩ := halike.exists_of_dropGaps hbody
      rcases lexeme with ⟨token, source⟩
      obtain rfl : token = .semicolon := hvalue
      rw [readDeclarations_of_semicolon hothers]
      exact ih hbehind hread
  | case6 lexemes lexeme rest hbody name hname colonSource source hcolon
      components after hvalue hnonempty ih =>
      obtain ⟨⟨further, stop⟩, hrest, heq⟩ := exists_of_map_eq_ok hread
      cases heq
      rcases lexeme with ⟨token, nameSource⟩
      obtain rfl : token = .ident name := hname
      obtain ⟨nameless, hothers, hnameless⟩ := halike.exists_of_dropGaps hbody
      obtain ⟨value, hbehind, hbehindColon⟩ := hnameless.exists_of_dropGaps hcolon
      obtain ⟨found, last, hfound, htext, hlast⟩ := readComponents_alike hbehindColon hvalue
      obtain ⟨behind, hdeclarations, hleft⟩ := ih hlast hrest
      refine ⟨behind, ?_, hleft⟩
      rw [readDeclarations_of_ident hothers hbehind hfound _ hdeclarations, htext]
      rw [htext]
      simpa using hnonempty
  | case4 | case5 | case7 | case8 => cases hread

theorem readRule_relaid (hrelaid : Relaid .selectors lexemes others)
    (hread : readRule lexemes = .ok (rule, left)) :
    ∃ behind, readRule others = .ok (rule, behind) ∧ Alike .selectors left behind := by
  obtain ⟨brace, body, closing, hselectors, hdeclarations⟩ := exists_block_of_readRule hread
  obtain ⟨block, hblock, hbody⟩ := readSelectors_relaid hrelaid hselectors others
  obtain ⟨behind, hbehind, hleft⟩ := readDeclarations_alike hbody hdeclarations
  exact ⟨behind, readRule_of_block hblock hbehind, hleft⟩

theorem readRules_alike (halike : Alike .selectors lexemes others)
    (hread : readRules lexemes = .ok rules) : readRules others = .ok rules := by
  fun_induction readRules lexemes generalizing rules others with
  | case1 lexemes hgaps =>
      cases hread
      rcases halike with hsame | hrelaid
      · exact readRules_of_gaps (hsame.trans hgaps)
      · exact absurd hgaps hrelaid.dropGaps_ne_nil
  | case2 => cases hread
  | case3 lexemes lexeme rest hgaps rule left hrule ih =>
      obtain ⟨further, hfurther, rfl⟩ := exists_of_map_eq_ok hread
      rcases halike with hsame | hrelaid
      · rw [readRules_of_rule (hsame.trans hgaps) hrule, hfurther]
        rfl
      · obtain ⟨behind, hothers, hblock, -⟩ := hrelaid.exists_of_dropGaps hgaps
        obtain ⟨last, hlast, hleft⟩ := readRule_relaid hblock hrule
        rw [readRules_of_rule hothers hlast, ih hleft hfurther]
        rfl

end Rules

/-! ## The joints of rules -/

/-- The joints among some tokens. -/
def joints (spot : Spot) : List Lexeme → List Token
  | [] => []
  | lexeme :: rest =>
      if isJoint spot lexeme.value then
        lexeme.value :: joints (spot.past lexeme.value) rest
      else joints (spot.past lexeme.value) rest

/-- The joints that a rule cannot do without. -/
def Rule.joints (rule : Rule) : List Token :=
  List.replicate (rule.selectors.length - 1) .comma ++ .opening .curly ::
    List.replicate rule.declarations.length .colon ++ [.closing .curly]

section Count

variable {selector property : List Char} {spot : Spot} {spaced : Bool} {stack : List Bracket}
variable {mark lexemes rest group after left body : List Lexeme} {lexeme brace closing : Lexeme}
variable {selectors : List String} {components : List Component}
variable {declarations : List Declaration} {rule : Rule} {rules : List Rule}

theorem joints_of_isJoint (hjoint : isJoint spot lexeme.value) (rest : List Lexeme) :
    joints spot (lexeme :: rest) =
      lexeme.value :: joints (spot.past lexeme.value) rest := by
  rw [joints, if_pos hjoint]

theorem joints_of_not_isJoint (hjoint : ¬isJoint spot lexeme.value) (rest : List Lexeme) :
    joints spot (lexeme :: rest) = joints (spot.past lexeme.value) rest := by
  rw [joints, if_neg hjoint]

theorem joints_of_isGap (hgap : lexeme.value.isGap) (rest : List Lexeme) :
    joints spot (lexeme :: rest) = joints spot rest := by
  rw [joints_of_not_isJoint fun hjoint => not_isGap_of_isJoint hjoint hgap,
    past_of_isGap hgap]

theorem joints_dropGaps (spot : Spot) (lexemes : List Lexeme) :
    joints spot (dropGaps lexemes) = joints spot lexemes := by
  induction lexemes with
  | nil => rfl
  | cons lexeme rest ih =>
      by_cases hgap : lexeme.value.isGap
      · rw [dropGaps_cons_of_isGap hgap, joints_of_isGap hgap, ih]
      · rw [dropGaps_cons_of_not_isGap hgap]

/-- With one comma more there is a comma for each selector. -/
theorem joints_of_readSelectors
    (hread : readSelectors selector mark lexemes = .ok (selectors, brace :: body)) :
    .comma :: joints .selectors lexemes =
      List.replicate selectors.length .comma ++ .opening .curly :: joints .name body := by
  fun_induction readSelectors selector mark lexemes generalizing selectors with
  | case1 =>
      obtain ⟨last, -, heq⟩ := exists_of_map_eq_ok hread
      cases heq
  | case2 selector mark lexeme rest hvalue =>
      obtain ⟨last, -, heq⟩ := exists_of_map_eq_ok hread
      cases heq
      rw [joints_of_isJoint (by rw [hvalue]; rfl), hvalue]
      rfl
  | case3 selector mark lexeme rest hvalue ih | case4 selector mark lexeme rest hvalue ih =>
      rw [joints_of_isGap (by rw [hvalue]; rfl)]
      exact ih hread
  | case5 selector mark lexeme rest hvalue ih =>
      obtain ⟨closed, -, hothers⟩ := exists_of_bind_eq_ok hread
      obtain ⟨⟨further, after⟩, hrest, heq⟩ := exists_of_bind_eq_ok hothers
      cases heq
      rw [joints_of_isJoint (by rw [hvalue]; rfl), hvalue, List.length_cons,
        List.replicate_succ, List.cons_append, ← ih hrest]
      rfl
  | case6 selector mark lexeme rest _ _ _ _ text htext ih =>
      obtain ⟨hjoint, hpast⟩ := past_selectors_of_selectorText? htext
      rw [joints_of_not_isJoint hjoint, hpast]
      exact ih hread
  | case7 => cases hread

theorem joints_of_takeGroup (hstack : stack ≠ [])
    (htake : takeGroup stack lexemes = some (group, after)) :
    joints (.value stack) lexemes = joints (.value []) after := by
  induction lexemes generalizing stack group with
  | nil => cases htake
  | cons lexeme rest ih =>
      obtain ⟨bracket, outer, rfl⟩ := List.exists_cons_of_ne_nil hstack
      rw [joints_of_not_isJoint (by simp [isJoint]), Spot.past]
      simp only [takeGroup] at htake
      split at htake
      next hclosed =>
        cases htake
        rw [List.isEmpty_iff.mp hclosed]
      next hopen =>
        obtain ⟨⟨inner, left⟩, hinner, heq⟩ := Option.map_eq_some_iff.mp htake
        cases heq
        exact ih (by simpa using hopen) hinner

/-- A value has no joints, and what ends it is one of the block. -/
theorem joints_of_readComponents
    (hread : readComponents property spaced lexemes = .ok (components, left)) :
    joints (.value []) lexemes = joints .name left := by
  fun_induction readComponents property spaced lexemes generalizing components with
  | case1 =>
      cases hread
      rfl
  | case2 spaced lexeme rest hends =>
      cases hread
      obtain ⟨hjoint, hpast⟩ := isJoint_name_of_endsValue hends
      rw [joints_of_isJoint (isJoint_value_iff.mpr hends), joints_of_isJoint hjoint, hpast]
  | case3 => cases hread
  | case4 spaced lexeme rest hends hstray hgap ih =>
      rw [joints_of_isGap hgap]
      exact ih hread
  | case5 spaced lexeme rest hends hstray hgap hopens ih =>
      obtain ⟨⟨further, after⟩, hrest, heq⟩ := exists_of_map_eq_ok hread
      cases heq
      rw [joints_of_not_isJoint (mt isJoint_value_iff.mp hends),
        past_value_of_not_endsValue hends, nest_nil_of_opens?_eq_none hopens]
      exact ih hrest
  | case6 => cases hread
  | case7 spaced lexeme rest hends hstray hgap bracket hopens group after hgroup ih =>
      obtain ⟨⟨further, left⟩, hrest, heq⟩ := exists_of_map_eq_ok hread
      cases heq
      rw [joints_of_not_isJoint (mt isJoint_value_iff.mp hends),
        past_value_of_not_endsValue hends, nest_of_opens? hopens,
        joints_of_takeGroup (List.cons_ne_nil _ _) hgroup]
      exact ih hrest

theorem joints_of_readDeclarations
    (hread : readDeclarations lexemes = .ok (declarations, closing :: left)) :
    (joints .name lexemes).filter (· ≠ .semicolon) =
      List.replicate declarations.length .colon ++
        .closing .curly :: (joints .selectors left).filter (· ≠ .semicolon) := by
  fun_induction readDeclarations lexemes generalizing declarations with
  | case1 => cases hread
  | case2 lexemes lexeme rest hbody hvalue =>
      cases hread
      rw [← joints_dropGaps, hbody, joints_of_isJoint (by rw [hvalue]; rfl), hvalue]
      rfl
  | case3 lexemes lexeme rest hbody hvalue ih =>
      rw [← joints_dropGaps, hbody, joints_of_isJoint (by rw [hvalue]; rfl), hvalue]
      exact ih hread
  | case6 lexemes lexeme rest hbody name hname colonSource source hcolon
      components after hvalue hnonempty ih =>
      obtain ⟨⟨further, stop⟩, hrest, heq⟩ := exists_of_map_eq_ok hread
      cases heq
      have hbefore : joints .name lexemes = joints .name rest := by
        rw [← joints_dropGaps, hbody, joints_of_not_isJoint (by simp [hname, isJoint]), hname]
        rfl
      have hvalueJoints : joints .name rest = .colon :: joints .name after := by
        rw [← joints_dropGaps, hcolon, joints_of_isJoint rfl, ← joints_of_readComponents hvalue]
        rfl
      rw [hbefore, hvalueJoints, List.filter_cons_of_pos (by simp), ih hrest]
      rfl
  | case4 | case5 | case7 | case8 => cases hread

theorem joints_of_readRule (hread : readRule lexemes = .ok (rule, left)) :
    (joints .selectors lexemes).filter (· ≠ .semicolon) =
      rule.joints ++ (joints .selectors left).filter (· ≠ .semicolon) := by
  obtain ⟨brace, body, closing, hselectors, hdeclarations⟩ := exists_block_of_readRule hread
  have hheader := joints_of_readSelectors hselectors
  have hblock := joints_of_readDeclarations hdeclarations
  unfold Rule.joints
  cases hlength : rule.selectors.length with
  | zero =>
      rw [hlength] at hheader
      cases hheader
  | succ commas =>
      rw [hlength, List.replicate_succ, List.cons_append, List.cons.injEq] at hheader
      rw [hheader.2, List.filter_append, List.filter_cons_of_pos (by simp), hblock]
      simp

/-- Semicolons apart, the joints of an accepted stylesheet are those of its rules. -/
theorem joints_of_readRules (hread : readRules lexemes = .ok rules) :
    (joints .selectors lexemes).filter (· ≠ .semicolon) = rules.flatMap Rule.joints := by
  fun_induction readRules lexemes generalizing rules with
  | case1 lexemes hgaps =>
      cases hread
      rw [← joints_dropGaps, hgaps]
      rfl
  | case2 => cases hread
  | case3 lexemes lexeme rest hgaps rule left hrule ih =>
      obtain ⟨further, hfurther, rfl⟩ := exists_of_map_eq_ok hread
      rw [← joints_dropGaps, hgaps, joints_of_readRule hrule, ih hfurther, List.flatMap_cons]

end Count

end ThemeSheet

import ThemeSheet.Proofs.Lexemes
import ThemeSheet.Proofs.ValueLayout

/-!
# Reading a value again

The text of a value is read as the tokens that it was made from, with one space for each
stretch of whitespace, unless dropping a comment brings two of them together.  Groups are
never at stake: what closes a group is a token by itself.  A token that is a component by
itself has to end where it did, in front of what follows it in the value.  It does so where
whitespace, or nothing at all, followed it from the start.
-/

namespace ThemeSheet

/-- The tokens of an item that are kept in the value, behind another item. -/
def Item.relaid (item : Item) : List Lexeme :=
  if item.isSpaced then ⟨.whitespace, [' ']⟩ :: item.lexemes else item.lexemes

/-- The tokens that a value is made from. -/
def relaidRow : List Item → List Lexeme
  | [] => []
  | first :: others => first.lexemes ++ others.flatMap Item.relaid

/-- What stands behind an item in the text of a value. -/
def followingText (items : List Item) : List Char := items.flatMap Item.continuation

/-- The tokens that are no gaps. -/
def content (row : List Lexeme) : List Lexeme :=
  row.filter (fun lexeme => !lexeme.value.isGap)

section Sources

variable {items : List Item} {row : List Lexeme}

theorem Item.sources_relaid (item : Item) : Span.sources item.relaid = item.continuation := by
  rw [Item.relaid, Item.continuation]
  split
  next => rfl
  next => rfl

theorem sources_flatMap_relaid (items : List Item) :
    Span.sources (items.flatMap Item.relaid) = followingText items := by
  induction items with
  | nil => rfl
  | cons item items ih =>
      rw [List.flatMap_cons, Span.sources_append, item.sources_relaid, ih]
      rfl

theorem sources_relaidRow (items : List Item) :
    Span.sources (relaidRow items) = joinedText items := by
  cases items with
  | nil => rfl
  | cons first others =>
      rw [relaidRow, Span.sources_append, sources_flatMap_relaid]
      rfl

theorem content_append (front back : List Lexeme) :
    content (front ++ back) = content front ++ content back :=
  List.filter_append front back

theorem content_of_gaps {gaps : List Lexeme} (hgaps : ∀ gap ∈ gaps, gap.value.isGap) :
    content gaps = [] := by
  rw [content, List.filter_eq_nil_iff]
  intro gap hgap
  simp [hgaps gap hgap]

theorem Item.content_row (item : Item) : content item.row = content item.lexemes := by
  rw [Item.row, content_append, content_of_gaps item.isGap, List.nil_append]

theorem Item.content_relaid (item : Item) : content item.relaid = content item.lexemes := by
  rw [Item.relaid]
  split
  next => rfl
  next => rfl

theorem content_flatMap_relaid (items : List Item) :
    content (items.flatMap Item.relaid) = content (items.flatMap Item.row) := by
  induction items with
  | nil => rfl
  | cons item items ih =>
      rw [List.flatMap_cons, List.flatMap_cons, content_append, content_append, ih,
        item.content_relaid, item.content_row]

theorem content_relaidRow (items : List Item) :
    content (relaidRow items) = content (items.flatMap Item.row) := by
  cases items with
  | nil => rfl
  | cons first others =>
      rw [relaidRow, content_append, content_flatMap_relaid, List.flatMap_cons,
        content_append, first.content_row]

/-- Only gaps are left out of a value. -/
theorem ValueLayout.content_eq (layout : ValueLayout row) :
    content (relaidRow layout.items) = content row := by
  have hrow := congrArg content layout.row_eq
  rw [content_append, content_of_gaps layout.isGap_behind, List.append_nil] at hrow
  rw [content_relaidRow, hrow]

end Sources

/-! ## Components in front of other texts -/

section Components

variable {text behind : List Char} {stack : List Bracket} {group back tail : List Lexeme}
variable {lexeme : Lexeme} {item : Item} {items : List Item}

theorem Closes.exists_closing (hcloses : Closes stack group) (hstack : stack ≠ []) :
    ∃ inner last bracket, group = inner ++ [last] ∧ last.value = .closing bracket := by
  induction hcloses with
  | @last stack lexeme hclosed =>
      cases hvalue : lexeme.value with
      | closing bracket => exact ⟨[], lexeme, bracket, rfl, hvalue⟩
      | _ => simp [hvalue, Token.nest, Token.closes?, hstack] at hclosed
  | @cons stack lexeme row hopen hrow ih =>
      obtain ⟨inner, last, bracket, rfl, hlast⟩ := ih hopen
      exact ⟨lexeme :: inner, last, bracket, rfl, hlast⟩

/-- A group is read the same in front of any text. -/
theorem lex_group_append (hlex : lex text = lexeme :: (group ++ back))
    (hgroup : Closes stack group) (hstack : stack ≠ []) (behind : List Char) :
    lex (Span.sources (lexeme :: group) ++ behind) = lexeme :: group ++ lex behind := by
  obtain ⟨inner, last, bracket, rfl, hlast⟩ := hgroup.exists_closing hstack
  have hmark : ∃ mark, last.value.mark? = some mark := by
    rw [hlast]
    cases bracket <;> exact ⟨_, rfl⟩
  obtain ⟨mark, hmark⟩ := hmark
  have hplace : lex text = lexeme :: inner ++ last :: back := by
    rw [hlex, List.append_assoc]
    rfl
  have hsource := source_of_mark? (lex_sources hplace) hmark
  have hread := lex_append_mark hplace hmark behind
  simpa [Span.sources_cons, Span.sources_append, hsource, Span.sources] using hread

/-- Whether the tokens of an item stay as they are in front of a text. -/
def Item.StaysBefore (item : Item) (behind : List Char) : Prop :=
  lex (item.source ++ behind) = item.lexemes ++ lex behind

/-- Only a token that is a component by itself can be read in another way. -/
theorem Item.staysBefore_iff (hlex : lex text = item.lexemes ++ tail)
    (behind : List Char) :
    item.StaysBefore behind ↔
      ∀ lexeme, item.lexemes = [lexeme] →
        lex (lexeme.source ++ behind) = lexeme :: lex behind := by
  rcases item with ⟨gaps, lexemes, hgaps, hcomponent⟩
  cases hcomponent with
  | @token lexeme halone =>
      have hsource : Span.sources [lexeme] = lexeme.source := by simp [Span.sources]
      simp only [StaysBefore, source, hsource]
      constructor
      · intro hstays single hsingle
        cases hsingle
        exact hstays
      · intro hstays
        exact hstays lexeme rfl
  | @group lexeme group bracket hopens hcurly hgroup =>
      constructor
      · intro hstays single hsingle
        obtain ⟨inner, last, -, rfl, -⟩ := hgroup.exists_closing (List.cons_ne_nil _ _)
        simp at hsingle
      · intro hsingle
        exact lex_group_append hlex hgroup (List.cons_ne_nil _ _) behind

theorem exists_head_of_not_isGap (hlex : lex text = lexeme :: back)
    (hgap : lexeme.value.isGap = false) :
    ∃ c rest, lexeme.source = c :: rest ∧ isSpace c = false := by
  obtain ⟨c, rest, -, rfl, -⟩ := exists_cons_of_lex hlex
  refine ⟨c, rest.take (Token.read c rest).2, rfl, ?_⟩
  by_contra hspace
  rw [Token.read_space (by simpa using hspace)] at hgap
  cases hgap

theorem IsComponent.exists_first {lexemes : List Lexeme} (hcomponent : IsComponent lexemes) :
    ∃ first others, lexemes = first :: others ∧ first.value.isGap = false := by
  cases hcomponent with
  | token halone => exact ⟨_, _, rfl, (standsAlone_iff.mp halone).2.2.1⟩
  | group hopens hcurly hgroup => exact ⟨_, _, rfl, (classes_of_opens? hopens).2.1⟩

theorem Item.exists_head (hlex : lex text = item.lexemes ++ tail) :
    ∃ c rest, item.source = c :: rest ∧ isSpace c = false := by
  obtain ⟨first, others, hfirst, hgap⟩ := item.isComponent.exists_first
  rw [hfirst, List.cons_append] at hlex
  obtain ⟨c, rest, hsource, hspace⟩ := exists_head_of_not_isGap hlex hgap
  refine ⟨c, rest ++ Span.sources others, ?_, hspace⟩
  rw [Item.source, hfirst, Span.sources_cons, hsource, List.cons_append]

/-- The space in front of an item is a token by itself. -/
theorem Item.lex_continuation_append (hlex : lex text = item.lexemes ++ tail)
    (behind : List Char) (others : List Lexeme) :
    lex (item.continuation ++ behind) = item.relaid ++ others ↔
      lex (item.source ++ behind) = item.lexemes ++ others := by
  rw [Item.continuation, Item.relaid]
  split
  next =>
    obtain ⟨c, rest, hsource, hspace⟩ := Item.exists_head hlex
    have hblank : isSpace ' ' := rfl
    have htake : (item.source ++ behind).takeWhile isSpace = [] := by
      rw [hsource, List.cons_append, List.takeWhile_cons_of_neg (by simp [hspace])]
    have hdrop : (item.source ++ behind).dropWhile isSpace = item.source ++ behind := by
      rw [hsource, List.cons_append, List.dropWhile_cons_of_neg (by simp [hspace])]
    rw [List.cons_append, List.cons_append, lex_space hblank, htake, hdrop,
      List.cons.injEq]
    exact and_iff_right rfl
  next => exact Iff.rfl

end Components

/-! ## Places in a value -/

section Places

variable {text : List Char} {first : Item} {items others : List Item} {tail : List Lexeme}

theorem forall_places_cons {p : Item → List Item → Prop} :
    (∀ front item back, first :: others = front ++ item :: back → p item back) ↔
      p first others ∧ ∀ front item back, others = front ++ item :: back → p item back := by
  constructor
  · intro hplaces
    refine ⟨hplaces [] first others rfl, ?_⟩
    rintro front item back rfl
    exact hplaces (first :: front) item back rfl
  · rintro ⟨hfirst, hothers⟩ front item back heq
    cases front with
    | nil =>
        cases heq
        exact hfirst
    | cons before front =>
        cases heq
        exact hothers front item back rfl

theorem lex_source_append_iff (item : Item) (items : List Item) :
    lex (item.source ++ followingText items) = item.lexemes ++ items.flatMap Item.relaid ↔
      item.StaysBefore (followingText items) ∧
        lex (followingText items) = items.flatMap Item.relaid := by
  constructor
  · intro hlex
    have hbehind := lex_sources hlex
    rw [sources_flatMap_relaid] at hbehind
    exact ⟨hlex.trans (by rw [hbehind]), hbehind⟩
  · rintro ⟨hstays, hbehind⟩
    rw [← hbehind]
    exact hstays

/-- Each item has to stay as it is in front of those that follow it. -/
theorem lex_followingText_iff (hlex : lex text = items.flatMap Item.row ++ tail) :
    lex (followingText items) = items.flatMap Item.relaid ↔
      ∀ front item back, items = front ++ item :: back →
        item.StaysBefore (followingText back) := by
  induction items generalizing text with
  | nil => simp [followingText]
  | cons item items ih =>
      rw [List.flatMap_cons, Item.row, List.append_assoc, List.append_assoc] at hlex
      have hitem := lex_sources hlex
      have hfollowing : followingText (item :: items) =
          item.continuation ++ followingText items := rfl
      rw [forall_places_cons, ← ih (lex_sources hitem), hfollowing, List.flatMap_cons,
        Item.lex_continuation_append hitem, lex_source_append_iff]

theorem lex_joinedText_iff (hlex : lex text = items.flatMap Item.row ++ tail) :
    lex (joinedText items) = relaidRow items ↔
      ∀ front item back, items = front ++ item :: back →
        item.StaysBefore (followingText back) := by
  cases items with
  | nil => simp [joinedText, relaidRow]
  | cons item items =>
      rw [List.flatMap_cons, List.append_assoc] at hlex
      have hjoined : joinedText (item :: items) = item.source ++ followingText items := rfl
      rw [forall_places_cons, ← lex_followingText_iff (lex_sources hlex), hjoined, relaidRow,
        lex_source_append_iff]

end Places

/-! ## Components kept apart -/

/-- Whether no comment comes right behind a component that another one follows, and no
component ends in a backslash. -/
structure ValueLayout.HasPlainGaps {row : List Lexeme} (layout : ValueLayout row) : Prop where
  whitespace : ∀ item ∈ layout.items.tail, ∀ gap ∈ item.gaps.head?, gap.value = .whitespace
  backslash : ∀ item ∈ layout.items, item.source.getLast? ≠ some '\\'

section Apart

variable {text source : List Char} {lexeme : Lexeme} {back tail : List Lexeme}
variable {items : List Item}

theorem atEdge_of_lex (hlex : lex text = lexeme :: back)
    (hends : lexeme.value.isGap ∨ lexeme.value.endsValue) : AtEdge text := by
  rcases hends with hgap | hends
  · rcases begins_of_isGap hlex hgap with ⟨-, hspace⟩ | ⟨-, body, rfl⟩
    · exact atEdge_of_startsWithSpace hspace
    · exact atEdge_cons (by decide) _
  · obtain ⟨c, rest, rfl, rfl, -⟩ := exists_cons_of_lex hlex
    have hmark : ∃ mark, (Token.read c rest).1.mark? = some mark := by
      simp only at hends
      unfold Token.endsValue at hends
      split at hends
      next hvalue => exact ⟨_, by rw [hvalue]; rfl⟩
      next hvalue => exact ⟨_, by rw [hvalue]; rfl⟩
      next => cases hends
    obtain ⟨mark, hmark⟩ := hmark
    rw [(eq_of_mark?_read hmark).1]
    exact atEdge_cons (Token.mem_edges_of_mark? hmark) rest

theorem startsWithSpace_of_lex (hlex : lex text = lexeme :: back)
    (hvalue : lexeme.value = .whitespace) : startsWithSpace text := by
  have hgap : lexeme.value.isGap := by
    rw [hvalue]
    rfl
  rcases begins_of_isGap hlex hgap with ⟨-, hspace⟩ | ⟨hcomment, -⟩
  · exact hspace
  · rw [hvalue] at hcomment
    cases hcomment

theorem Swaps.append_left {front rest other : List Char} (hswaps : Swaps front rest other)
    (hfront : front ≠ []) (before : List Char) : Swaps (before ++ front) rest other :=
  { hswaps with
    backslash := by
      rw [List.getLast?_append_of_ne_nil _ hfront]
      exact hswaps.backslash }

/-- What follows a component is the same in the value up to the next gap, and there an
edge stands for another. -/
theorem exists_swaps_of_lex (hlex : lex text = items.flatMap Item.row ++ lexeme :: tail)
    (hends : lexeme.value.isGap ∨ lexeme.value.endsValue)
    (hgaps : ∀ item ∈ items, ∀ gap ∈ item.gaps.head?, gap.value = .whitespace)
    (hbackslash : ∀ item ∈ items, item.source.getLast? ≠ some '\\')
    (hsource : source.getLast? ≠ some '\\') :
    ∃ front rest other, text = front ++ rest ∧ followingText items = front ++ other ∧
      Swaps (source ++ front) rest other := by
  induction items generalizing text source with
  | nil =>
      refine ⟨[], text, [], rfl, rfl, ?_⟩
      rw [List.append_nil]
      exact
        { ne_nil := by
            rintro rfl
            simp at hlex
          atEdge := atEdge_of_lex hlex hends
          other_atEdge := by simp [AtEdge]
          newline := rfl
          space := by simp [startsWithSpace]
          closing := by simp
          backslash := fun _ => hsource }
  | cons item items ih =>
      rw [List.forall_mem_cons] at hgaps hbackslash
      rw [List.flatMap_cons, Item.row, List.append_assoc, List.append_assoc] at hlex
      have hitem := lex_sources hlex
      have hfollowing : followingText (item :: items) =
          item.continuation ++ followingText items := rfl
      cases hfirst : item.gaps with
      | nil =>
          have hspaced : item.isSpaced = false := by rw [Item.isSpaced, hfirst, List.any_nil]
          obtain ⟨front, rest, other, hrest, hother, hswaps⟩ :=
            ih (lex_sources hitem) hgaps.2 hbackslash.2 hbackslash.1
          have hne : item.source ++ front ≠ [] := by
            obtain ⟨c, more, hcons, -⟩ := Item.exists_head hitem
            rw [hcons]
            exact List.cons_ne_nil _ _
          refine ⟨item.source ++ front, rest, other, ?_, ?_, hswaps.append_left hne source⟩
          · rw [eq_sources_append hlex, hfirst, Span.sources_append, hrest]
            simp [Item.source, Span.sources]
          · rw [hfollowing, hother, Item.continuation, hspaced]
            simp
      | cons gap gaps =>
          have hvalue := hgaps.1 gap (by rw [hfirst]; rfl)
          have hspaced : item.isSpaced = true := by
            simp [Item.isSpaced, hfirst, hvalue]
          rw [hfirst, List.cons_append] at hlex
          have hspace := startsWithSpace_of_lex hlex hvalue
          refine ⟨[], text, followingText (item :: items), rfl, rfl, ?_⟩
          rw [hfollowing, Item.continuation, hspaced, List.append_nil]
          exact
            { ne_nil := by
                rintro rfl
                simp at hlex
              atEdge := atEdge_of_lex hlex (by simp [hvalue, Token.isGap])
              other_atEdge := atEdge_cons (by decide) _
              newline := rfl
              space := fun _ => hspace
              closing := by simp
              backslash := fun _ => hsource }

/-- A token that is a component by itself ends where it did. -/
theorem lex_append_followingText
    {token : Lexeme} (hlex : lex text = token :: (items.flatMap Item.row ++ lexeme :: tail))
    (halone : token.value.standsAlone)
    (hends : lexeme.value.isGap ∨ lexeme.value.endsValue)
    (hgaps : ∀ item ∈ items, ∀ gap ∈ item.gaps.head?, gap.value = .whitespace)
    (hbackslash : ∀ item ∈ items, item.source.getLast? ≠ some '\\')
    (hsource : token.source.getLast? ≠ some '\\') :
    lex (token.source ++ followingText items) = token :: lex (followingText items) := by
  have hbehind := lex_sources_tail hlex
  obtain ⟨front, rest, other, hrest, hother, hswaps⟩ :=
    exists_swaps_of_lex hbehind hends hgaps hbackslash hsource
  have hne : Span.sources (items.flatMap Item.row ++ lexeme :: tail) ≠ [] := by
    rw [hrest]
    simp [hswaps.ne_nil]
  obtain ⟨value, c, taken, rfl, hread⟩ := exists_of_lex_eq_cons hlex hne
  have hpast : value.looksPastSpace = false := by
    cases value with
    | function name | badString found => cases halone
    | _ => rfl
  have hsame : Token.read c (taken ++ front ++ other) = Token.read c (taken ++ front ++ rest) := by
    have hbegins : Swaps (c :: (taken ++ front)) rest other := hswaps
    apply Swaps.read_eq hbegins
    · rw [List.append_assoc, ← hrest, hread, List.length_append]
      exact Nat.le_add_right _ _
    · rw [List.append_assoc, ← hrest, hread]
      exact fun _ => hpast
  rw [List.append_assoc, List.append_assoc, ← hrest, ← hother, hread] at hsame
  exact lex_cons_append hsame

end Apart

/-! ## Values -/

/-- Whether each token that is a component by itself ends where it did, in front of what
follows it in the value. -/
def ValueLayout.KeepsEnds {row : List Lexeme} (layout : ValueLayout row) : Prop :=
  ∀ front item back, layout.items = front ++ item :: back →
    ∀ lexeme, item.lexemes = [lexeme] →
      lex (lexeme.source ++ followingText back) = lexeme :: lex (followingText back)

section Layouts

variable {text : List Char} {row tail : List Lexeme} {ending : Lexeme}
variable {front back : List Item} {item : Item}

theorem ValueLayout.append_eq (layout : ValueLayout row) (tail : List Lexeme) :
    row ++ tail = layout.items.flatMap Item.row ++ (layout.behind ++ tail) := by
  rw [← List.append_assoc, layout.row_eq]

/-- The tokens of a text from one of the items of a value on. -/
theorem ValueLayout.lex_at (layout : ValueLayout row) (hlex : lex text = row ++ tail)
    (hitems : layout.items = front ++ item :: back) :
    lex (Span.sources (item.lexemes ++ (back.flatMap Item.row ++ (layout.behind ++ tail)))) =
      item.lexemes ++ (back.flatMap Item.row ++ (layout.behind ++ tail)) := by
  have hplace : lex text = front.flatMap Item.row ++ item.gaps ++
      (item.lexemes ++ (back.flatMap Item.row ++ (layout.behind ++ tail))) := by
    rw [hlex, layout.append_eq tail, hitems]
    simp [Item.row]
  exact lex_sources hplace

theorem ValueLayout.lex_joinedText_iff_keepsEnds (layout : ValueLayout row)
    (hlex : lex text = row ++ tail) :
    lex (joinedText layout.items) = relaidRow layout.items ↔ layout.KeepsEnds := by
  rw [lex_joinedText_iff (hlex.trans (layout.append_eq tail))]
  constructor
  · intro hstays front item back hplace
    exact (Item.staysBefore_iff (layout.lex_at hlex hplace) _).mp (hstays front item back hplace)
  · intro hends front item back hplace
    exact (Item.staysBefore_iff (layout.lex_at hlex hplace) _).mpr (hends front item back hplace)

theorem ValueLayout.HasPlainGaps.keepsEnds {layout : ValueLayout row}
    (hplain : layout.HasPlainGaps) (hlex : lex text = row ++ ending :: tail)
    (hends : ending.value.endsValue) : layout.KeepsEnds := by
  intro front item back hplace token htoken
  have hitem := layout.lex_at hlex hplace
  have hmem : item ∈ layout.items := by simp [hplace]
  have hlater : ∀ other ∈ back, other ∈ layout.items.tail ∧ other ∈ layout.items := by
    intro other hother
    rw [hplace]
    cases front <;> simp [hother]
  obtain ⟨lexeme, behind, hbehind, hclasses⟩ : ∃ lexeme behind,
      layout.behind ++ ending :: tail = lexeme :: behind ∧
        (lexeme.value.isGap ∨ lexeme.value.endsValue) := by
    cases hgaps : layout.behind with
    | nil => exact ⟨ending, tail, rfl, .inr hends⟩
    | cons gap gaps =>
        exact ⟨gap, gaps ++ ending :: tail, rfl, .inl (layout.isGap_behind gap (by simp [hgaps]))⟩
  have halone : token.value.standsAlone := by
    have hcomponent := item.isComponent
    rw [htoken] at hcomponent
    cases hcomponent with
    | token halone => exact halone
    | group hopens hcurly hgroup => cases hgroup
  have hsource : token.source.getLast? ≠ some '\\' := by
    have hlast := hplain.backslash item hmem
    rwa [Item.source, htoken, Span.sources_cons, Span.sources, List.flatMap_nil,
      List.append_nil] at hlast
  rw [htoken, hbehind] at hitem
  exact lex_append_followingText hitem halone hclasses
    (fun other hother => hplain.whitespace other (hlater other hother).1)
    (fun other hother => hplain.backslash other (hlater other hother).2) hsource

end Layouts

/-! ## Stylesheets -/

section Stylesheets

variable {css : String} {rules : List Rule} {declaration : Declaration} {row : List Lexeme}

theorem IsDeclared.exists_lex (hdeclared : IsDeclared (lex css.toList) declaration row) :
    ∃ text ending tail, lex text = row ++ ending :: tail ∧ ending.value.endsValue := by
  obtain ⟨front, name, gaps, colon, ending, back, hlex, -, -, -, hends⟩ := hdeclared
  have hplace : lex css.toList =
      front ++ name :: (gaps ++ [colon]) ++ (row ++ ending :: back) := by
    rw [hlex]
    simp
  exact ⟨_, ending, back, lex_sources hplace, hends⟩

/-- A value that is no string by itself has the tokens of its layout in its text, without
the comments and with one space for each stretch of whitespace.  It is read again as these
tokens exactly if each of them that is a component by itself ends where it did, and so in
particular where no comment parts two components and no component ends in a backslash. -/
theorem lex_values_of_readStylesheet (hread : readStylesheet css = .ok rules) :
    (sites css).map (·.rule) = rules ∧
      ∀ site ∈ sites css,
        List.Forall₂ (fun declaration row => IsDeclared (lex css.toList) declaration row ∧
          Nonempty (ValueLayout row) ∧
          ∀ layout : ValueLayout row, layout.quoted? = none →
            content (relaidRow layout.items) = content row ∧
            declaration.value.toList = Span.sources (relaidRow layout.items) ∧
            (lex declaration.value.toList = relaidRow layout.items ↔ layout.KeepsEnds) ∧
            (layout.HasPlainGaps → layout.KeepsEnds))
          site.rule.declarations (site.valueRows css) := by
  refine ⟨map_rule_sites hread, ?_⟩
  intro site hmem
  refine (layouts_of_mem_sites hmem).imp ?_
  rintro declaration row ⟨hdeclared, hnonempty, hvalue⟩
  refine ⟨hdeclared, hnonempty, ?_⟩
  intro layout hquoted
  obtain ⟨text, ending, tail, hlex, hends⟩ := hdeclared.exists_lex
  have hjoined : declaration.value.toList = joinedText layout.items := by
    rw [hvalue layout, String.toList_ofList, ValueLayout.text, hquoted, Option.getD_none]
  refine ⟨layout.content_eq, ?_, ?_, ?_⟩
  · rw [hjoined, sources_relaidRow]
  · rw [hjoined, layout.lex_joinedText_iff_keepsEnds hlex]
  · intro hplain
    exact hplain.keepsEnds hlex hends

/-- Only the word behind the string comes right behind a comment, and no string goes on
into a word. -/
theorem keepsEnds_mixedLayout : mixedLayout.KeepsEnds := by
  simp only [ValueLayout.KeepsEnds, mixedLayout, ValueLayout.ofItems, forall_places_cons]
  refine ⟨?_, ?_, ?_, ?_⟩
  · intro lexeme hlexeme
    simp [Item.ofComponent] at hlexeme
  · intro lexeme hlexeme
    cases hlexeme
    decide +kernel
  · intro lexeme hlexeme
    cases hlexeme
    decide +kernel
  · intro front item back hnil
    simp at hnil

theorem lex_values_of_readStylesheet_mixedSheet :
    readStylesheet mixedSheet = .ok mixedRules ∧
      lex "f(;) 'b'c".toList = relaidRow mixedLayout.items ∧
      content (relaidRow mixedLayout.items) = content mixedRow := by
  obtain ⟨hread, site, hmem, hdeclared, hrows⟩ :=
    exists_site_of_layout mixedLayout lex_mixedSheet (by decide)
  have hdeclarations := (lex_values_of_readStylesheet hread).2 site hmem
  rw [hdeclared, hrows, List.forall₂_cons] at hdeclarations
  obtain ⟨hcontent, -, htokens, -⟩ := hdeclarations.1.2.2 mixedLayout rfl
  exact ⟨hread, htokens.mpr keepsEnds_mixedLayout, hcontent⟩

/-- A value of two words with nothing but a comment between them. -/
def gluedSheet : String := "A\x7bx:a/**/b\x7d"

def gluedRow : List Lexeme := [⟨.ident ['a'], ['a']⟩, emptyComment, ⟨.ident ['b'], ['b']⟩]

def gluedLayout : ValueLayout gluedRow :=
  .ofItems
    [.ofComponent [⟨.ident ['a'], ['a']⟩] (.token rfl),
      ⟨[emptyComment], [⟨.ident ['b'], ['b']⟩], isGap_emptyComment, .token rfl⟩]

/-- Without the comment the two words are one. -/
theorem content_lex_ne_gluedSheet :
    readStylesheet gluedSheet = .ok [⟨["A"], [⟨"x", "ab"⟩]⟩] ∧
      gluedLayout.quoted? = none ∧
      ∃ site ∈ sites gluedSheet, site.rule.declarations = [⟨"x", "ab"⟩] ∧
        site.valueRows gluedSheet = [gluedRow] ∧
        content (lex "ab".toList) ≠ content gluedRow := by
  have hlex : lex gluedSheet.toList = declarationRule gluedRow := by decide +kernel
  have hjoined : lex "ab".toList = [⟨.ident ['a', 'b'], ['a', 'b']⟩] := by decide +kernel
  obtain ⟨hread, site, hmem, hdeclared, hrows⟩ :=
    exists_site_of_layout gluedLayout hlex (by decide)
  refine ⟨hread, rfl, site, hmem, hdeclared, hrows, ?_⟩
  rw [hjoined]
  decide

end Stylesheets

end ThemeSheet

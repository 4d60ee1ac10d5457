import ThemeSheet.Token.Lexer
import Mathlib.Data.List.TakeWhile

/-!
# Edges

Some characters end whatever comes before them, unless they are part of it: a brace, a
comma, a colon, a semicolon, the slash of a comment, a bracket that closes a group and a
space.  What ends in front of such an edge, a name, an escape, a string or a comment, was
read without a look behind it.  So it is read the same in front of another edge.
-/

namespace ThemeSheet

def edges : List Char :=
  [',', ':', ';', '/', '\x7b', '\x7d', ')', ']', ' ', '\t', '\n', '\r', '\x0c']

theorem forall_mem_edges {p : Char → Prop} [DecidablePred p]
    (hedges : edges.all (fun x => p x)) : ∀ x ∈ edges, p x := by
  intro x hx
  exact of_decide_eq_true (List.all_eq_true.mp hedges x hx)

theorem isNewline_of_not_isSpace {x : Char} (hspace : isSpace x = false) :
    isNewline x = false := by
  rw [isSpace, Bool.or_eq_false_iff] at hspace
  exact hspace.2

theorem mem_edges_of_isSpace {c : Char} (hspace : isSpace c) : c ∈ edges := by
  simp only [isSpace, isNewline, Bool.or_eq_true, beq_iff_eq] at hspace
  rcases hspace with (rfl | rfl) | (rfl | rfl) | rfl <;> decide

theorem not_isDigit_of_mem_edges : ∀ x ∈ edges, x.isDigit = false :=
  forall_mem_edges (by decide)

theorem not_isHexDigit_of_mem_edges : ∀ x ∈ edges, isHexDigit x = false :=
  forall_mem_edges (by decide)

theorem not_isNameChar_of_mem_edges : ∀ x ∈ edges, isNameChar x = false :=
  forall_mem_edges (by decide)

theorem not_isQuote_of_mem_edges : ∀ x ∈ edges, isQuote x = false :=
  forall_mem_edges (by decide)

/-! ## Texts that run into an edge -/

/-- Whether a text is at its end or begins with an edge. -/
def AtEdge (text : List Char) : Prop := ∀ x ∈ text.head?, x ∈ edges

def startsWithSpace : List Char → Bool
  | c :: _ => isSpace c
  | [] => false

theorem startsWithSpace_of_startsWithNewline {text : List Char}
    (hnewline : startsWithNewline text) : startsWithSpace text := by
  cases text with
  | nil => cases hnewline
  | cons c rest =>
      rw [startsWithNewline] at hnewline
      rw [startsWithSpace, isSpace, hnewline, Bool.or_true]

/-- Whether `other` may stand behind `front` in place of `rest`, and what ended in front
of an edge still does.  A space takes the place of a space only, since an escape takes
one in.  A backslash in front of a newline escapes nothing, but does in front of any
other character. -/
structure Swaps (front rest other : List Char) : Prop where
  ne_nil : rest ≠ []
  atEdge : AtEdge rest
  other_atEdge : AtEdge other
  newline : startsWithNewline other = false
  space : startsWithSpace other → startsWithSpace rest
  closing : other.head? = some ')' → rest.head? = some ')'
  backslash : startsWithNewline rest → front.getLast? ≠ some '\\'

section Lists

variable {front rest other : List Char} {c : Char} {p : Char → Bool}

theorem atEdge_cons {x : Char} (hx : x ∈ edges) (text : List Char) : AtEdge (x :: text) := by
  intro y hy
  rw [List.head?_cons, Option.mem_some_iff] at hy
  rwa [← hy]

theorem atEdge_of_startsWithSpace {text : List Char} (hspace : startsWithSpace text) :
    AtEdge text := by
  cases text with
  | nil => cases hspace
  | cons c rest => exact atEdge_cons (mem_edges_of_isSpace hspace) rest

theorem exists_of_append_edge_eq_cons {text : List Char} (hrest : AtEdge rest)
    (hc : c ∉ edges) (heq : front ++ rest = c :: text) :
    ∃ more, front = c :: more ∧ more ++ rest = text := by
  cases front with
  | nil =>
      rw [List.nil_append] at heq
      exact absurd (hrest c (by rw [heq]; rfl)) hc
  | cons first more =>
      rw [List.cons_append, List.cons.injEq] at heq
      exact ⟨more, by rw [heq.1], heq.2⟩

theorem head?_append_edge (hrest : AtEdge rest) (hc : c ∉ edges) :
    (front ++ rest).head? = some c ↔ front.head? = some c := by
  cases front with
  | nil =>
      constructor
      · intro hhead
        exact absurd (hrest c hhead) hc
      · intro hhead
        cases hhead
  | cons first front => rfl

theorem takeWhile_append_of_head? (hp : ∀ x ∈ rest.head?, p x = false) :
    (front ++ rest).takeWhile p = front.takeWhile p := by
  rw [List.takeWhile_append]
  split
  next hall =>
    rw [(List.takeWhile_prefix p).eq_of_length hall]
    cases rest with
    | nil => simp
    | cons x rest =>
        have hx := hp x rfl
        simp [hx]
  next => rfl

theorem takeWhile_append_edge (hrest : AtEdge rest) (hp : ∀ x ∈ edges, p x = false) :
    (front ++ rest).takeWhile p = front.takeWhile p :=
  takeWhile_append_of_head? fun x hx => hp x (hrest x hx)

theorem dropWhile_append_edge (hrest : AtEdge rest) (hp : ∀ x ∈ edges, p x = false) :
    (front ++ rest).dropWhile p = front.dropWhile p ++ rest := by
  rw [List.dropWhile_append]
  split
  next hall =>
    rw [List.isEmpty_iff.mp hall]
    cases rest with
    | nil => rfl
    | cons x rest =>
        have hx := hp x (hrest x rfl)
        simp [hx]
  next => rfl

theorem takeWhile_take_append_edge (hrest : AtEdge rest) (hp : ∀ x ∈ edges, p x = false)
    (n : Nat) : ((front ++ rest).take n).takeWhile p = (front.take n).takeWhile p := by
  rw [List.take_append]
  apply takeWhile_append_of_head?
  intro x hx
  cases rest with
  | nil => simp at hx
  | cons y rest =>
      cases hn : n - front.length with
      | zero => simp [hn] at hx
      | succ more =>
          rw [hn, List.take_succ_cons, List.head?_cons, Option.mem_some_iff] at hx
          exact hp x (hrest x (by rw [hx]; rfl))

/-- What ends in front of the last character in front of an edge has seen no edge. -/
theorem takeWhile_append_of_length_lt
    (hlength : ((front ++ rest).takeWhile p).length < front.length) :
    (front ++ other).takeWhile p = (front ++ rest).takeWhile p := by
  rw [List.takeWhile_append] at hlength
  have hpart : (front.takeWhile p).length ≠ front.length := by
    intro hall
    rw [if_pos hall, List.length_append] at hlength
    omega
  rw [List.takeWhile_append, List.takeWhile_append, if_neg hpart, if_neg hpart]

theorem getLast?_of_isSuffix {back : List Char} (hsuffix : back <:+ front)
    (hlast : back.getLast? = some c) : front.getLast? = some c := by
  obtain ⟨before, rfl⟩ := hsuffix
  rw [List.getLast?_append, hlast, Option.some_or]

end Lists

section Swaps

variable {front rest other : List Char} {c : Char}

theorem Swaps.of_isSuffix {back : List Char} (hswaps : Swaps front rest other)
    (hsuffix : back <:+ front) : Swaps back rest other :=
  { hswaps with
    backslash := fun hnewline hlast =>
      hswaps.backslash hnewline (getLast?_of_isSuffix hsuffix hlast) }

theorem Swaps.tail (hswaps : Swaps (c :: front) rest other) : Swaps front rest other :=
  hswaps.of_isSuffix (List.suffix_cons c front)

/-- Edges that are no spaces may stand for one another, whatever is behind them. -/
theorem swaps_cons {x y : Char} (hx : x ∈ edges) (hy : y ∈ edges)
    (hxspace : isSpace x = false) (hyspace : isSpace y = false)
    (hclosing : y = ')' → x = ')') (front u v : List Char) :
    Swaps front (x :: u) (y :: v) where
  ne_nil := List.cons_ne_nil x u
  atEdge := atEdge_cons hx u
  other_atEdge := atEdge_cons hy v
  newline := isNewline_of_not_isSpace hyspace
  space := by
    intro hspace
    rw [startsWithSpace, hyspace] at hspace
    cases hspace
  closing := by
    intro hhead
    rw [List.head?_cons, Option.some.injEq] at hhead ⊢
    exact hclosing hhead
  backslash := by
    intro hnewline
    rw [startsWithNewline, isNewline_of_not_isSpace hxspace] at hnewline
    cases hnewline

theorem takeWhile_isSpace_append (hspace : startsWithSpace rest = false) :
    (front ++ rest).takeWhile isSpace = front.takeWhile isSpace := by
  apply takeWhile_append_of_head?
  intro x hx
  cases rest with
  | nil => cases hx
  | cons y rest =>
      rw [List.head?_cons, Option.mem_some_iff] at hx
      rwa [← hx]

theorem Swaps.takeWhile_isSpace (hswaps : Swaps front rest other)
    (hwidth : ((front ++ rest).takeWhile isSpace).length ≤ front.length) :
    (front ++ other).takeWhile isSpace = (front ++ rest).takeWhile isSpace := by
  rcases hwidth.lt_or_eq with hlt | heq
  · exact takeWhile_append_of_length_lt hlt
  · have hspace : startsWithSpace rest = false := by
      by_contra hspace
      cases hrest : rest with
      | nil => exact hswaps.ne_nil hrest
      | cons x u =>
          rw [Bool.not_eq_false, hrest, startsWithSpace] at hspace
          rw [List.takeWhile_append, hrest, List.takeWhile_cons_of_pos hspace] at heq
          split at heq
          next => simp at heq
          next hpart => exact hpart heq
    rw [takeWhile_isSpace_append hspace,
      takeWhile_isSpace_append (by simpa [hspace] using hswaps.space)]

end Swaps

/-! ## Spans -/

namespace Span

variable {α : Type} {next : Char → List Char → Option (α × Nat)}
variable {front rest other text : List Char}

theorem drop_width_cons {c : Char} {rest : List Char} {more : Nat} (value : α)
    (spans : List (Span α)) :
    (c :: rest).drop (width (⟨value, c :: rest.take more⟩ :: spans)) =
      (rest.drop more).drop (width spans) := by
  rw [width_cons, List.length_cons, List.length_take, Nat.add_right_comm,
    List.drop_succ_cons, ← List.drop_drop]
  rcases Nat.le_total more rest.length with hle | hge
  · rw [Nat.min_eq_left hle]
  · rw [Nat.min_eq_right hge, List.drop_length, List.drop_eq_nil_of_le hge]

theorem eq_none_of_drop_width_readWhile {c : Char} {behind : List Char}
    (hdrop : text.drop (width (readWhile next text)) = c :: behind) : next c behind = none := by
  fun_induction readWhile next text with
  | case1 => cases hdrop
  | case2 first rest hnext =>
      rw [width_nil, List.drop_zero, List.cons.injEq] at hdrop
      rw [← hdrop.1, ← hdrop.2, hnext]
  | case3 first rest value more hnext ih =>
      rw [drop_width_cons] at hdrop
      exact ih hdrop

/-- A loop whose steps see no edge sees none, unless it ends there. -/
theorem readWhile_swap (hswaps : Swaps front rest other)
    (hstep : ∀ {c : Char} {front : List Char}, Swaps (c :: front) rest other →
      (∀ value more, next c (front ++ rest) = some (value, more) → more ≤ front.length) →
      next c (front ++ other) = next c (front ++ rest))
    (hwidth : width (readWhile next (front ++ rest)) ≤ front.length)
    (hend : width (readWhile next (front ++ rest)) = front.length →
      readWhile next other = []) :
    readWhile next (front ++ other) = readWhile next (front ++ rest) := by
  induction hlength : front.length using Nat.strong_induction_on generalizing front with
  | _ length ih =>
      cases front with
      | nil =>
          rw [List.nil_append, List.length_nil, Nat.le_zero] at hwidth
          rw [List.nil_append, List.nil_append, hend hwidth]
          cases hrest : rest with
          | nil => simp [readWhile]
          | cons x u =>
              cases hnext : next x u with
              | none => rw [readWhile_of_none hnext]
              | some read =>
                  rw [hrest, readWhile_of_some hnext, width_cons] at hwidth
                  simp at hwidth
      | cons c front =>
          simp only [List.cons_append, List.length_cons] at hwidth hlength hend ⊢
          cases hnext : next c (front ++ rest) with
          | none =>
              have hother : next c (front ++ other) = next c (front ++ rest) :=
                hstep hswaps (by simp [hnext])
              rw [hnext] at hother
              rw [readWhile_of_none hnext, readWhile_of_none hother]
          | some read =>
              obtain ⟨value, more⟩ := read
              rw [readWhile_of_some hnext, width_cons, List.length_cons, List.length_take,
                List.length_append] at hwidth hend
              have hpos := List.length_pos_iff.mpr hswaps.ne_nil
              have hmore : more ≤ front.length := by omega
              have hother : next c (front ++ other) = next c (front ++ rest) :=
                hstep hswaps (by simp [hnext, hmore])
              rw [hnext] at hother
              rw [readWhile_of_some hnext, readWhile_of_some hother,
                List.take_append_of_le_length hmore, List.take_append_of_le_length hmore,
                List.drop_append_of_le_length hmore, List.drop_append_of_le_length hmore]
              rw [List.drop_append_of_le_length hmore] at hwidth hend
              have hbehind : Swaps (front.drop more) rest other :=
                hswaps.tail.of_isSuffix (List.drop_suffix more front)
              rw [ih (front.drop more).length (by simp; omega) hbehind (by simp; omega)
                (fun hwhole => hend (by simp at hwhole; omega)) rfl]

end Span

/-! ## Escapes and names -/

section Names

variable {c : Char} {front rest other : List Char}

theorem startsWithNewline_append (hfront : front ≠ []) (rest : List Char) :
    startsWithNewline (front ++ rest) = startsWithNewline front := by
  cases front with
  | nil => exact absurd rfl hfront
  | cons c front => rfl

theorem spaceWidth_cons (c : Char) (rest : List Char) :
    spaceWidth (c :: rest) =
      if c = '\r' ∧ rest.head? = some '\n' then 2
      else if isSpace c then 1 else 0 := by
  cases rest with
  | nil => simp [spaceWidth]
  | cons d rest =>
      by_cases hboth : c = '\r' ∧ d = '\n'
      · obtain ⟨rfl, rfl⟩ := hboth
        rfl
      · simp only [List.head?_cons, Option.some.injEq, if_neg hboth]
        unfold spaceWidth
        split <;> simp_all

theorem newlineWidth_cons (c : Char) (rest : List Char) :
    newlineWidth (c :: rest) =
      if c = '\r' ∧ rest.head? = some '\n' then 2
      else if isNewline c then 1 else 0 := by
  cases rest with
  | nil => simp [newlineWidth]
  | cons d rest =>
      by_cases hboth : c = '\r' ∧ d = '\n'
      · obtain ⟨rfl, rfl⟩ := hboth
        rfl
      · simp only [List.head?_cons, Option.some.injEq, if_neg hboth]
        unfold newlineWidth
        split <;> simp_all

theorem spaceWidth_eq_zero_iff (text : List Char) :
    spaceWidth text = 0 ↔ startsWithSpace text = false := by
  cases text with
  | nil => simp [spaceWidth, startsWithSpace]
  | cons c rest =>
      rw [spaceWidth_cons, startsWithSpace]
      split
      next hboth =>
        rw [hboth.1]
        decide
      next => simp

theorem Swaps.head?_ne_feed (hswaps : Swaps front rest other) : other.head? ≠ some '\n' := by
  intro hhead
  have hnewline := hswaps.newline
  cases other with
  | nil => cases hhead
  | cons y other =>
      rw [List.head?_cons, Option.some.injEq] at hhead
      rw [hhead] at hnewline
      cases hnewline

theorem Swaps.spaceWidth_eq (hswaps : Swaps front rest other)
    (hwidth : spaceWidth (front ++ rest) ≤ front.length) :
    spaceWidth (front ++ other) = spaceWidth (front ++ rest) := by
  have hfeed := hswaps.head?_ne_feed
  cases front with
  | nil =>
      have hrest := (spaceWidth_eq_zero_iff rest).mp (Nat.le_zero.mp hwidth)
      have hother : startsWithSpace other = false := by simpa [hrest] using hswaps.space
      rw [List.nil_append, List.nil_append, (spaceWidth_eq_zero_iff rest).mpr hrest,
        (spaceWidth_eq_zero_iff other).mpr hother]
  | cons c front =>
      cases front with
      | nil =>
          simp only [List.cons_append, List.nil_append, spaceWidth_cons, List.length_singleton]
            at hwidth ⊢
          split at hwidth
          next => simp at hwidth
          next hrest => rw [if_neg (fun hboth => hfeed hboth.2), if_neg hrest]
      | cons d front =>
          change spaceWidth (c :: d :: (front ++ other)) = spaceWidth (c :: d :: (front ++ rest))
          rw [spaceWidth_cons, spaceWidth_cons]
          rfl

theorem Swaps.newlineWidth_eq (hswaps : Swaps (c :: front) rest other)
    (hwidth : newlineWidth (c :: front ++ rest) ≤ (c :: front).length) :
    newlineWidth (c :: front ++ other) = newlineWidth (c :: front ++ rest) := by
  have hfeed := hswaps.head?_ne_feed
  cases front with
  | nil =>
      simp only [List.cons_append, List.nil_append, newlineWidth_cons, List.length_singleton]
        at hwidth ⊢
      split at hwidth
      next => simp at hwidth
      next hrest => rw [if_neg (fun hboth => hfeed hboth.2), if_neg hrest]
  | cons d front =>
      change newlineWidth (c :: d :: (front ++ other)) =
        newlineWidth (c :: d :: (front ++ rest))
      rw [newlineWidth_cons, newlineWidth_cons]
      rfl

theorem readEscape_pos (hrest : rest ≠ []) : 0 < (readEscape rest).2 := by
  obtain ⟨c, rest, rfl⟩ := List.exists_cons_of_ne_nil hrest
  simp only [readEscape]
  split
  next => exact Nat.one_pos
  next hdigits =>
    have hpos := List.length_pos_iff.mpr (fun hnil => hdigits (List.isEmpty_iff.mpr hnil))
    simp only
    omega

theorem Swaps.readEscape_eq (hswaps : Swaps front rest other)
    (hwidth : (readEscape (front ++ rest)).2 ≤ front.length) :
    readEscape (front ++ other) = readEscape (front ++ rest) := by
  cases front with
  | nil => exact absurd hwidth (Nat.not_le_of_lt (readEscape_pos hswaps.ne_nil))
  | cons c front =>
      have hdigits : ∀ text : List Char, AtEdge text →
          ((c :: front ++ text).take 6).takeWhile isHexDigit =
            ((c :: front).take 6).takeWhile isHexDigit :=
        fun text htext => takeWhile_take_append_edge htext not_isHexDigit_of_mem_edges 6
      have hlength : (((c :: front).take 6).takeWhile isHexDigit).length ≤
          (c :: front).length :=
        (List.takeWhile_prefix _).length_le.trans (List.length_take_le' _ _)
      have hrest := hdigits rest hswaps.atEdge
      have hother := hdigits other hswaps.other_atEdge
      rw [List.cons_append] at hrest hother hwidth ⊢
      rw [List.cons_append]
      simp only [readEscape] at hwidth ⊢
      rw [hrest] at hwidth ⊢
      rw [hother]
      split
      next => rfl
      next hsome =>
        rw [if_neg hsome, ← List.cons_append, List.drop_append_of_le_length hlength] at hwidth
        have hbehind : Swaps ((c :: front).drop
            (((c :: front).take 6).takeWhile isHexDigit).length) rest other :=
          hswaps.of_isSuffix (List.drop_suffix _ _)
        rw [← List.cons_append, ← List.cons_append, List.drop_append_of_le_length hlength,
          List.drop_append_of_le_length hlength, hbehind.spaceWidth_eq]
        rw [List.length_drop]
        simp only at hwidth
        omega

/-- A backslash in front of an edge that another may take the place of begins an escape,
which takes the edge in. -/
theorem Swaps.ne_nil_of_escape (hswaps : Swaps ('\\' :: front) rest other)
    (hescape : startsWithNewline (front ++ rest) = false →
      (readEscape (front ++ rest)).2 ≤ front.length) : front ≠ [] := by
  rintro rfl
  have hnewline : startsWithNewline rest = false := by
    by_contra hnewline
    exact hswaps.backslash (by simpa using hnewline) rfl
  exact absurd (hescape hnewline) (Nat.not_le_of_lt (readEscape_pos hswaps.ne_nil))

theorem Swaps.nameChar_eq (hswaps : Swaps (c :: front) rest other)
    (hmore : ∀ value more, nameChar c (front ++ rest) = some (value, more) →
      more ≤ front.length) :
    nameChar c (front ++ other) = nameChar c (front ++ rest) := by
  by_cases hname : isNameChar c
  · simp [nameChar, hname]
  · by_cases hbackslash : c = '\\'
    · subst hbackslash
      have hfront : front ≠ [] := by
        apply hswaps.ne_nil_of_escape
        intro hnewline
        exact hmore (some (readEscape (front ++ rest)).1) _ (by simp [nameChar, hname, hnewline])
      simp only [nameChar, startsWithNewline_append hfront] at hmore ⊢
      split
      next => rfl
      next =>
        split
        next hescape =>
          rw [if_neg hname, if_pos hescape] at hmore
          rw [hswaps.tail.readEscape_eq (hmore _ _ rfl)]
        next => rfl
    · simp [nameChar, hname, hbackslash]

theorem readWhile_nameChar_of_atEdge (hrest : AtEdge rest) :
    Span.readWhile nameChar rest = [] := by
  cases rest with
  | nil => simp [Span.readWhile]
  | cons x u =>
      have hx := hrest x rfl
      have hbackslash : x ≠ '\\' := ne_of_mem_of_not_mem hx (by decide)
      apply Span.readWhile_of_none
      simp [nameChar, not_isNameChar_of_mem_edges x hx, hbackslash]

theorem Swaps.readName_eq (hswaps : Swaps front rest other)
    (hwidth : (readName (front ++ rest)).2 ≤ front.length) :
    readName (front ++ other) = readName (front ++ rest) := by
  unfold readName at hwidth ⊢
  rw [Span.readWhile_swap hswaps Swaps.nameChar_eq hwidth
    (fun _ => readWhile_nameChar_of_atEdge hswaps.other_atEdge)]

theorem startsName_cons (hhyphen : c ≠ '-') (hbackslash : c ≠ '\\') :
    startsName (c :: rest) = isNameStart c := by
  unfold startsName
  split <;> simp_all

theorem startsName_of_atEdge (hrest : AtEdge rest) : startsName rest = false := by
  cases rest with
  | nil => rfl
  | cons x u =>
      have hx := hrest x rfl
      have hname := not_isNameChar_of_mem_edges x hx
      simp only [isNameChar, Bool.or_eq_false_iff] at hname
      rw [startsName_cons (ne_of_mem_of_not_mem hx (by decide))
        (ne_of_mem_of_not_mem hx (by decide)), hname.1.1]

/-- Only a backslash looks at the edge behind it. -/
theorem startsName_append_edge (hrest : AtEdge rest)
    (hbackslash : startsWithNewline rest → front.getLast? ≠ some '\\') :
    startsName (front ++ rest) = startsName front := by
  cases front with
  | nil => rw [List.nil_append, startsName_of_atEdge hrest]; rfl
  | cons c front =>
      cases front with
      | nil =>
          by_cases hhyphen : c = '-'
          · subst hhyphen
            cases rest with
            | nil => rfl
            | cons x u =>
                have hx := hrest x rfl
                have hname := not_isNameChar_of_mem_edges x hx
                simp only [isNameChar, Bool.or_eq_false_iff] at hname
                have hslash : x ≠ '\\' := ne_of_mem_of_not_mem hx (by decide)
                change (isNameStart x || x == '-' || x == '\\') = false
                simp [hname, hslash]
          · by_cases hslash : c = '\\'
            · subst hslash
              cases hnewline : startsWithNewline rest with
              | false =>
                  change (!startsWithNewline rest) = true
                  rw [hnewline]
                  rfl
              | true => exact absurd rfl (hbackslash hnewline)
            · rw [List.cons_append, startsName_cons hhyphen hslash,
                startsName_cons hhyphen hslash]
      | cons d front =>
          by_cases hhyphen : c = '-'
          · subst hhyphen
            rfl
          · by_cases hslash : c = '\\'
            · subst hslash
              rfl
            · rw [List.cons_append, startsName_cons hhyphen hslash,
                startsName_cons hhyphen hslash]

end Names

/-! ## Quoted strings and comments -/

section Quoted

variable {quote c x : Char} {front rest other u : List Char}

theorem Swaps.quotedChar_eq (hswaps : Swaps (c :: front) rest other)
    (hmore : ∀ value more, quotedChar quote c (front ++ rest) = some (value, more) →
      more ≤ front.length) :
    quotedChar quote c (front ++ other) = quotedChar quote c (front ++ rest) := by
  by_cases hends : c = quote ∨ isNewline c
  · simp only [quotedChar, if_pos hends]
  · by_cases hbackslash : c = '\\'
    · subst hbackslash
      have hsome : ∀ text : List Char, (front ++ text).isEmpty = false →
          quotedChar quote '\\' (front ++ text) =
            if startsWithNewline (front ++ text) then
              some (none, newlineWidth (front ++ text))
            else some (some (readEscape (front ++ text)).1, (readEscape (front ++ text)).2) := by
        intro text htext
        simp [quotedChar, hends, htext]
      have hrest := hsome rest (by simp [hswaps.ne_nil])
      have hfront : front ≠ [] := by
        apply hswaps.ne_nil_of_escape
        intro hnewline
        rw [hrest, if_neg (by simp [hnewline])] at hmore
        exact hmore _ _ rfl
      rw [hrest, startsWithNewline_append hfront] at hmore
      rw [hrest, hsome other (by simp [hfront]), startsWithNewline_append hfront,
        startsWithNewline_append hfront]
      split
      next hnewline =>
        rw [if_pos hnewline] at hmore
        obtain ⟨d, behind, rfl⟩ := List.exists_cons_of_ne_nil hfront
        rw [hswaps.tail.newlineWidth_eq (hmore _ _ rfl)]
      next hnewline =>
        rw [if_neg hnewline] at hmore
        rw [hswaps.tail.readEscape_eq (hmore _ _ rfl)]
    · simp only [quotedChar, if_neg hends, if_neg hbackslash]

/-- Ends a string whose characters have been read, in front of what comes next. -/
def closeQuoted (quote : Char) (spans : List (Span (Option Char))) (next : Option Char) :
    Token × Nat :=
  if next = none then (.quoted (Span.chars spans), Span.width spans)
  else if next = some quote then (.quoted (Span.chars spans), Span.width spans + 1)
  else (.badString (Span.chars spans), Span.width spans)

theorem readQuoted_eq_closeQuoted (quote : Char) (text : List Char) :
    readQuoted quote text =
      closeQuoted quote (Span.readWhile (quotedChar quote) text)
        (text.drop (Span.width (Span.readWhile (quotedChar quote) text))).head? := by
  simp only [readQuoted, closeQuoted]
  cases text.drop (Span.width (Span.readWhile (quotedChar quote) text)) with
  | nil => rfl
  | cons c behind => by_cases hc : c = quote <;> simp [hc]

theorem le_width_closeQuoted (quote : Char) (spans : List (Span (Option Char)))
    (next : Option Char) : Span.width spans ≤ (closeQuoted quote spans next).2 := by
  unfold closeQuoted
  split
  next => exact le_rfl
  next =>
    split
    next => exact Nat.le_succ _
    next => exact le_rfl

theorem isNewline_of_quotedChar_eq_none (hquote : c ≠ quote)
    (hstop : quotedChar quote c u = none) : isNewline c := by
  unfold quotedChar at hstop
  split at hstop
  next hends => exact hends.resolve_left hquote
  next =>
    split at hstop
    next =>
      split at hstop
      next => cases hstop
      next => split at hstop <;> cases hstop
    next => cases hstop

/-- Only a newline ends a string in front of an edge, and that breaks it. -/
theorem Swaps.readQuoted_eq (hswaps : Swaps front rest other) (hquote : quote ∉ edges)
    (hwidth : (readQuoted quote (front ++ rest)).2 ≤ front.length)
    (hwhole : startsWithNewline rest →
      ∀ text, (readQuoted quote (front ++ rest)).1 ≠ .badString text) :
    readQuoted quote (front ++ other) = readQuoted quote (front ++ rest) := by
  rw [readQuoted_eq_closeQuoted] at hwidth hwhole
  generalize hspans : Span.readWhile (quotedChar quote) (front ++ rest) = spans
    at hwidth hwhole
  have hlt : Span.width spans < front.length := by
    refine lt_of_le_of_ne ((le_width_closeQuoted quote spans _).trans hwidth) fun heq => ?_
    obtain ⟨x, u, hrest⟩ := List.exists_cons_of_ne_nil hswaps.ne_nil
    have hdrop : (front ++ rest).drop (Span.width spans) = x :: u := by
      rw [heq, List.drop_left, hrest]
    have hclose : x ≠ quote :=
      ne_of_mem_of_not_mem (hswaps.atEdge x (by rw [hrest]; rfl)) hquote
    have hstop : quotedChar quote x u = none :=
      Span.eq_none_of_drop_width_readWhile (hspans ▸ hdrop)
    have hnewline : startsWithNewline rest := by
      rw [hrest]
      exact isNewline_of_quotedChar_eq_none hclose hstop
    apply hwhole hnewline (Span.chars spans)
    rw [hdrop, List.head?_cons, closeQuoted, if_neg (by simp), if_neg (by simpa using hclose)]
  have halike : Span.readWhile (quotedChar quote) (front ++ other) = spans := by
    rw [← hspans] at hlt ⊢
    exact Span.readWhile_swap hswaps Swaps.quotedChar_eq hlt.le
      (fun heq => absurd heq hlt.ne)
  rw [readQuoted_eq_closeQuoted, readQuoted_eq_closeQuoted, halike, hspans, List.head?_drop,
    List.head?_drop, List.getElem?_append_left hlt, List.getElem?_append_left hlt]

theorem commentWidth_cons_pos (c : Char) (rest : List Char) :
    0 < commentWidth (c :: rest) := by
  unfold commentWidth
  split <;> simp_all

/-- A comment that is closed is closed whatever follows. -/
theorem commentWidth_append
    (hwidth : commentWidth (front ++ x :: u) ≤ front.length) (v : List Char) :
    commentWidth (front ++ v) = commentWidth (front ++ x :: u) := by
  induction front with
  | nil =>
      have hpos := commentWidth_cons_pos x u
      simp only [List.nil_append, List.length_nil] at hwidth
      omega
  | cons c front ih =>
      cases front with
      | nil =>
          have hpos := commentWidth_cons_pos x u
          rw [List.cons_append, List.nil_append] at hwidth
          unfold commentWidth at hwidth
          split at hwidth <;> simp_all
      | cons d front =>
          by_cases hclose : c = '*' ∧ d = '/'
          · obtain ⟨rfl, rfl⟩ := hclose
            rfl
          · have hopen : ∀ text rest : List Char,
                c = '*' → d :: text = '/' :: rest → False := by
              intro text rest hc hd
              rw [List.cons.injEq] at hd
              exact hclose ⟨hc, hd.1⟩
            simp only [List.cons_append, List.length_cons] at hwidth ih ⊢
            rw [commentWidth.eq_2 _ _ (hopen _)] at hwidth
            rw [commentWidth.eq_2 _ _ (hopen _), commentWidth.eq_2 _ _ (hopen _),
              ih (by omega)]

end Quoted

end ThemeSheet

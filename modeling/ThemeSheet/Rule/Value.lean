import ThemeSheet.Rule.SyntaxError

/-!
# Values

A value is a row of components up to a semicolon or the end of the block.  A
component is one token, or a group from an opening bracket or function to the
bracket that closes it.  Only brackets that match count inside of a group.
-/

namespace ThemeSheet

/-- The brackets that are open after a token, innermost first. -/
def Token.nest (token : Token) (stack : List Bracket) : List Bracket :=
  match token.closes? with
  | some bracket => if stack.head? = some bracket then stack.tail else stack
  | none => token.opens?.toList ++ stack

def takeGroup (stack : List Bracket) :
    List Lexeme → Option (List Lexeme × List Lexeme)
  | [] => none
  | lexeme :: rest =>
      let stack := lexeme.value.nest stack
      if stack.isEmpty then some ([lexeme], rest)
      else
        (takeGroup stack rest).map (fun (group, left) => (lexeme :: group, left))

theorem append_of_takeGroup
    {stack : List Bracket} {lexemes group left : List Lexeme}
    (htake : takeGroup stack lexemes = some (group, left)) :
    group ++ left = lexemes := by
  induction lexemes generalizing stack group with
  | nil => simp [takeGroup] at htake
  | cons lexeme rest ih =>
      simp only [takeGroup] at htake
      split at htake
      next =>
        simp only [Option.some.injEq, Prod.mk.injEq] at htake
        obtain ⟨rfl, rfl⟩ := htake
        rfl
      next =>
        obtain ⟨⟨inner, _⟩, hinner, heq⟩ := Option.map_eq_some_iff.mp htake
        simp only [Prod.mk.injEq] at heq
        obtain ⟨rfl, rfl⟩ := heq
        rw [List.cons_append, ih hinner]

structure Component where
  /-- Whether whitespace stands between the component and the one before. -/
  spaced : Bool
  lexemes : List Lexeme
deriving DecidableEq, Repr

namespace Component

def source (component : Component) : List Char :=
  Span.sources component.lexemes

/-- The source behind what separates it from the component before. -/
def continuation (component : Component) : List Char :=
  if component.spaced then ' ' :: component.source else component.source

def quoted? (component : Component) : Option (List Char) :=
  match component.lexemes with
  | [⟨.quoted text, _⟩] => some text
  | _ => none

end Component

/-- The text of a value.  A quoted string on its own stands for its content;
otherwise the sources of the components are kept, one space for each stretch
of whitespace between them. -/
def valueText : List Component → List Char
  | [] => []
  | [component] => component.quoted?.getD component.source
  | first :: others => first.source ++ others.flatMap (·.continuation)

namespace Token

def endsValue : Token → Bool
  | semicolon | closing .curly => true
  | _ => false

def isStray : Token → Bool
  | opening .curly | badString _ | badUrl _ | closing _ => true
  | _ => false

end Token

/-- Reads the components of a value up to what ends it, which is left unread.
`spaced` tells whether whitespace stands before the lexemes. -/
def readComponents (property : List Char) (spaced : Bool) :
    List Lexeme → Except Refusal (List Component × List Lexeme)
  | [] => .ok ([], [])
  | lexeme :: rest =>
      if lexeme.value.endsValue then .ok ([], lexeme :: rest)
      else if lexeme.value.isStray then
        refuse (.unexpectedInValue property lexeme.value) (lexeme :: rest)
      else if lexeme.value.isGap then
        readComponents property (spaced || lexeme.value = .whitespace) rest
      else
        match lexeme.value.opens? with
        | none =>
            (readComponents property false rest).map
              (fun (others, left) => (⟨spaced, [lexeme]⟩ :: others, left))
        | some bracket =>
            match _hgroup : takeGroup [bracket] rest with
            | none => refuse (.unclosedGroup property bracket) (lexeme :: rest)
            | some (group, after) =>
                (readComponents property false after).map
                  (fun (others, left) =>
                    (⟨spaced, lexeme :: group⟩ :: others, left))
termination_by lexemes => lexemes.length
decreasing_by
  all_goals simp only [List.length_cons, Nat.lt_add_one]
  have hlength := congrArg List.length (append_of_takeGroup _hgroup)
  rw [List.length_append] at hlength
  omega

theorem isSuffix_of_readComponents
    {property : List Char} {spaced : Bool}
    {lexemes left : List Lexeme} {components : List Component}
    (hread : readComponents property spaced lexemes = .ok (components, left)) :
    left <:+ lexemes := by
  fun_induction readComponents property spaced lexemes
    generalizing components with
  | case1 => simp_all
  | case2 => simp_all
  | case3 => simp [refuse] at hread
  | case4 spaced lexeme rest _ _ _ ih =>
      exact (ih hread).trans (List.suffix_cons lexeme rest)
  | case5 spaced lexeme rest _ _ _ _ ih =>
      cases hrest : readComponents property false rest with
      | error refusal => simp [hrest, Except.map] at hread
      | ok result =>
          simp only [hrest, Except.map, Except.ok.injEq, Prod.mk.injEq] at hread
          obtain ⟨-, rfl⟩ := hread
          exact (ih hrest).trans (List.suffix_cons lexeme rest)
  | case6 => simp [refuse] at hread
  | case7 spaced lexeme rest _ _ _ bracket _ group after hgroup ih =>
      cases hrest : readComponents property false after with
      | error refusal => simp [hrest, Except.map] at hread
      | ok result =>
          simp only [hrest, Except.map, Except.ok.injEq, Prod.mk.injEq] at hread
          obtain ⟨-, rfl⟩ := hread
          refine (ih hrest).trans ⟨lexeme :: group, ?_⟩
          rw [List.cons_append, append_of_takeGroup hgroup]

end ThemeSheet

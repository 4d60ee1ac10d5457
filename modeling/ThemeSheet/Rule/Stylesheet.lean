import ThemeSheet.Rule.Block
import ThemeSheet.Rule.Selectors
import ThemeSheet.Token.Lexer

/-!
# Stylesheets

A stylesheet is read in full or not at all: the first syntax error is
reported with its location.
-/

namespace ThemeSheet

def readRule (lexemes : List Lexeme) : Except Refusal (Rule × List Lexeme) := do
  let (selectors, block) ← readSelectors [] lexemes lexemes
  match block with
  | [] => refuse .expectedBlock []
  | _ :: body =>
      let (declarations, left) ← readDeclarations body
      match left with
      | [] => refuse .unterminatedBlock block
      | _ :: left => return (⟨selectors, declarations⟩, left)

theorem length_lt_of_readRule
    {lexemes left : List Lexeme} {rule : Rule}
    (hread : readRule lexemes = .ok (rule, left)) :
    left.length < lexemes.length := by
  simp only [readRule, bind, Except.bind] at hread
  split at hread
  next => cases hread
  next selected hselected =>
    have hblock := (isSuffix_of_readSelectors hselected).length_le
    split at hread
    next => simp [refuse] at hread
    next brace body hbody =>
      simp only [hbody, List.length_cons] at hblock
      split at hread
      next => cases hread
      next declared hdeclared =>
        have hdeclarations := (isSuffix_of_readDeclarations hdeclared).length_le
        split at hread
        next => simp [refuse] at hread
        next closing after hafter =>
          simp only [hafter, List.length_cons] at hdeclarations
          simp only [pure, Except.pure, Except.ok.injEq, Prod.mk.injEq] at hread
          obtain ⟨-, rfl⟩ := hread
          omega

def readRules (lexemes : List Lexeme) : Except Refusal (List Rule) :=
  match _hrules : dropGaps lexemes with
  | [] => .ok []
  | lexeme :: rest =>
      match _hrule : readRule (lexeme :: rest) with
      | .error refusal => .error refusal
      | .ok (rule, left) => (readRules left).map (rule :: ·)
termination_by lexemes.length
decreasing_by
  have hgaps := (dropGaps_isSuffix lexemes).length_le
  have hrule := length_lt_of_readRule _hrule
  rw [_hrules] at hgaps
  omega

structure Fault where
  cause : SyntaxError
  location : Location
deriving DecidableEq, Repr

namespace Fault

def message (fault : Fault) : String := fault.cause.message

def report (fault : Fault) : String :=
  "Error parsing theme CSS at line " ++ toString fault.location.line ++
    ", column " ++ toString fault.location.column ++ ". " ++ fault.message

/-- The location of the first of the lexemes that are left of a text. -/
def locate (text : List Char) (rest : List Lexeme) : Location :=
  Location.start.past (text.take (text.length - Span.width rest))

end Fault

def readStylesheet (css : String) : Except Fault (List Rule) :=
  (readRules (lex css.toList)).mapError
    (fun refusal => ⟨refusal.cause, Fault.locate css.toList refusal.rest⟩)

end ThemeSheet

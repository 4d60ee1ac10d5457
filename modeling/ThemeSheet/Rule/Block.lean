import ThemeSheet.Rule.Basic
import ThemeSheet.Rule.Value

/-!
# Blocks

A block holds declarations, each a name, a colon and a value.  Semicolons
separate them, and any number of semicolons does.
-/

namespace ThemeSheet

/-- Reads the declarations up to the end of the block, which is left
unread. -/
def readDeclarations (lexemes : List Lexeme) :
    Except Refusal (List Declaration × List Lexeme) :=
  match _hbody : dropGaps lexemes with
  | [] => .ok ([], [])
  | lexeme :: rest =>
      match lexeme.value with
      | .closing .curly => .ok ([], lexeme :: rest)
      | .semicolon => readDeclarations rest
      | .ident name =>
          match _hcolon : dropGaps rest with
          | ⟨.colon, _⟩ :: source =>
              match _hvalue : readComponents name false source with
              | .error refusal => .error refusal
              | .ok (components, after) =>
                  if (valueText components).isEmpty then
                    refuse (.missingValue name) (lexeme :: rest)
                  else
                    (readDeclarations after).map (fun (others, left) =>
                      (Declaration.ofChars name (valueText components) :: others,
                        left))
          | _ => refuse (.expectedColon name) rest
      | token => refuse (.invalidPropertyName token) (lexeme :: rest)
termination_by lexemes.length
decreasing_by
  all_goals
    have hbody := (dropGaps_isSuffix lexemes).length_le
    simp only [_hbody, List.length_cons] at hbody
  · omega
  · have hcolon := (dropGaps_isSuffix rest).length_le
    have hvalue := (isSuffix_of_readComponents _hvalue).length_le
    simp only [_hcolon, List.length_cons] at hcolon
    omega

theorem isSuffix_of_readDeclarations
    {lexemes left : List Lexeme} {declarations : List Declaration}
    (hread : readDeclarations lexemes = .ok (declarations, left)) :
    left <:+ lexemes := by
  fun_induction readDeclarations lexemes generalizing declarations with
  | case1 =>
      cases hread
      exact List.nil_suffix
  | case2 lexemes lexeme rest hbody =>
      cases hread
      exact hbody ▸ dropGaps_isSuffix lexemes
  | case3 lexemes lexeme rest hbody hvalue ih =>
      exact (ih hread).trans (isSuffix_of_dropGaps hbody)
  | case6 lexemes lexeme rest hbody name hname colonSource source hcolon
      components after hvalue hnonempty ih =>
      cases hrest : readDeclarations after with
      | error refusal => simp [hrest, Except.map] at hread
      | ok result =>
          simp only [hrest, Except.map, Except.ok.injEq, Prod.mk.injEq] at hread
          obtain ⟨-, rfl⟩ := hread
          have hleft := (ih hrest).trans (isSuffix_of_readComponents hvalue)
          exact (hleft.trans (isSuffix_of_dropGaps hcolon)).trans (isSuffix_of_dropGaps hbody)
  | case4 | case5 | case7 | case8 => cases hread

end ThemeSheet

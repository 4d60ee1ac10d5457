/-!
# Spans

A span is a stretch of a text together with what it reads as.  Tokens are
spans of the stylesheet, and the characters of a name, a string or a url are
spans of the token.  `Span.readWhile` is the one loop behind all of them: it
loses nothing, since the spans and the unread rest make up the text again.
-/

namespace ThemeSheet

structure Span (α : Type) where
  value : α
  source : List Char
deriving DecidableEq, Repr

namespace Span

variable {α : Type}

/-- Reads spans from the front of the text for as long as `next` answers.
From a character and what follows it, `next` tells what they read as and how
many of the following characters belong to it. -/
def readWhile (next : Char → List Char → Option (α × Nat)) :
    List Char → List (Span α)
  | [] => []
  | c :: rest =>
      match next c rest with
      | none => []
      | some (value, more) =>
          ⟨value, c :: rest.take more⟩ :: readWhile next (rest.drop more)
termination_by text => text.length
decreasing_by
  simp only [List.length_drop, List.length_cons]
  omega

def sources (spans : List (Span α)) : List Char :=
  spans.flatMap (·.source)

def width (spans : List (Span α)) : Nat := (sources spans).length

def chars (spans : List (Span (Option Char))) : List Char :=
  spans.filterMap (·.value)

theorem sources_cons (span : Span α) (spans : List (Span α)) :
    sources (span :: spans) = span.source ++ sources spans :=
  List.flatMap_cons

theorem sources_append (front back : List (Span α)) :
    sources (front ++ back) = sources front ++ sources back :=
  List.flatMap_append

@[simp] theorem width_nil : width ([] : List (Span α)) = 0 := rfl

@[simp] theorem width_cons (span : Span α) (spans : List (Span α)) :
    width (span :: spans) = span.source.length + width spans := by
  simp [width, sources]

theorem width_append (front back : List (Span α)) :
    width (front ++ back) = width front + width back := by
  simp [width, sources]

theorem width_le_of_isSuffix {back spans : List (Span α)} (hsuffix : back <:+ spans) :
    width back ≤ width spans := by
  obtain ⟨front, rfl⟩ := hsuffix
  rw [width_append]
  exact Nat.le_add_left _ _

section Step

variable {next : Char → List Char → Option (α × Nat)} {c : Char} {rest : List Char}

theorem readWhile_of_none (hnext : next c rest = none) :
    readWhile next (c :: rest) = [] := by
  simp only [readWhile, hnext]

theorem readWhile_of_some {value : α} {more : Nat}
    (hnext : next c rest = some (value, more)) :
    readWhile next (c :: rest) =
      ⟨value, c :: rest.take more⟩ :: readWhile next (rest.drop more) := by
  simp only [readWhile, hnext]

end Step

theorem sources_readWhile_of_forall_isSome
    (next : Char → List Char → Option (α × Nat))
    (hnext : ∀ c rest, (next c rest).isSome) (text : List Char) :
    sources (readWhile next text) = text := by
  fun_induction readWhile next text with
  | case1 => rfl
  | case2 c rest hnone =>
      have hsome := hnext c rest
      simp [hnone] at hsome
  | case3 c rest value more hvalue ih =>
      simp only [sources, List.flatMap_cons, List.cons_append] at ih ⊢
      rw [ih, List.take_append_drop]

end Span

end ThemeSheet

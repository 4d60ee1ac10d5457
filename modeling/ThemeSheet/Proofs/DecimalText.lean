import ThemeSheet.Number.Decimal
import Mathlib.Data.List.TakeWhile

/-!
# How decimal numbers are written

A decimal number is written as a sign, a mantissa and an exponent.  The mantissa is a row of
digits, with one point before, between or behind them if any.  The sign and the exponent may be
left out.  Exactly such a text is read, and as the number that it says.
-/

namespace ThemeSheet

namespace Decimal

/-- The ways to write a sign. -/
inductive WritesSign : List Char → Bool → Prop where
  | none : WritesSign [] false
  | plus : WritesSign ['+'] false
  | minus : WritesSign ['-'] true

structure IsDigits (digits : List Char) : Prop where
  ne_nil : digits ≠ []
  isDigit : ∀ c ∈ digits, c.isDigit

/-- The ways to write digits, so many of them behind the point. -/
inductive WritesMantissa : List Char → List Char → Nat → Prop where
  | whole (digits : List Char) : WritesMantissa digits digits 0
  | point (whole fraction : List Char) :
      WritesMantissa (whole ++ '.' :: fraction) (whole ++ fraction) fraction.length

inductive WritesInteger : List Char → Int → Prop where
  | mk {sign digits : List Char} {negative : Bool} (hsign : WritesSign sign negative)
      (hdigits : IsDigits digits) :
      WritesInteger (sign ++ digits)
        (if negative then -(Nat.ofDigitChars 10 digits 0 : Int) else Nat.ofDigitChars 10 digits 0)

inductive WritesExponent : List Char → Int → Prop where
  | none : WritesExponent [] 0
  | some {mark : Char} {text : List Char} {n : Int} (hmark : mark = 'e' ∨ mark = 'E')
      (hinteger : WritesInteger text n) : WritesExponent (mark :: text) n

/-- Whether a text is a way to write a number.  The digits are those of the base ten. -/
inductive IsWritten : Decimal → List Char → Prop where
  | mk {sign mantissa digits exponent : List Char} {negative : Bool} {places : Nat} {e : Int}
      (hsign : WritesSign sign negative) (hmantissa : WritesMantissa mantissa digits places)
      (hdigits : IsDigits digits) (hexponent : WritesExponent exponent e) :
      IsWritten ⟨negative, Nat.ofDigitChars 10 digits 0, e - places⟩
        (sign ++ (mantissa ++ exponent))

/-! ## Texts that are cut in two -/

section Cuts

variable {p : Char → Bool} {front : List Char}

/-- A text is cut in front of the first character that fails a test. -/
theorem cut_cases (p : Char → Bool) (text : List Char) :
    (∀ c ∈ text, p c) ∧ text.takeWhile p = text ∧ text.dropWhile p = [] ∨
      ∃ c rest, p c = false ∧ text.dropWhile p = c :: rest ∧
        text = text.takeWhile p ++ c :: rest := by
  have htext := List.takeWhile_append_dropWhile (p := p) (l := text)
  cases hrest : text.dropWhile p with
  | nil =>
      rw [hrest, List.append_nil] at htext
      exact .inl ⟨List.dropWhile_eq_nil_iff.mp hrest, htext, rfl⟩
  | cons c rest =>
      have hc := List.head?_dropWhile_not p text
      rw [hrest] at hc htext
      exact .inr ⟨c, rest, hc, rfl, htext.symm⟩

theorem cut_append (hfront : ∀ c ∈ front, p c) (rest : List Char)
    (hrest : ∀ c ∈ rest.head?, p c = false) :
    (front ++ rest).takeWhile p = front ∧ (front ++ rest).dropWhile p = rest := by
  rw [List.takeWhile_append_of_pos hfront, List.dropWhile_append_of_pos hfront]
  cases rest with
  | nil => exact ⟨List.append_nil front, rfl⟩
  | cons c rest =>
      have hc : ¬p c := by simpa using hrest c rfl
      rw [List.takeWhile_cons_of_neg hc, List.dropWhile_cons_of_neg hc, List.append_nil]
      exact ⟨rfl, rfl⟩

end Cuts

/-! ## Signs and digits -/

section Parts

variable {text rest sign digits : List Char} {negative : Bool} {n places : Nat}

theorem readDigits?_eq_some_iff :
    readDigits? digits = some n ↔ IsDigits digits ∧ Nat.ofDigitChars 10 digits 0 = n := by
  unfold readDigits?
  split
  next hbad =>
    refine ⟨nofun, fun ⟨hdigits, _⟩ => ?_⟩
    rw [Bool.or_eq_true, List.isEmpty_iff, Bool.not_eq_true', ← Bool.not_eq_true,
      List.all_eq_true] at hbad
    exact absurd hdigits.isDigit (hbad.resolve_left hdigits.ne_nil)
  next hgood =>
    rw [Bool.or_eq_true, List.isEmpty_iff, Bool.not_eq_true', ← Bool.not_eq_true,
      List.all_eq_true, not_or, not_not] at hgood
    rw [Option.some.injEq]
    exact ⟨fun hvalue => ⟨⟨hgood.1, hgood.2⟩, hvalue⟩, fun hread => hread.2⟩

theorem exists_sign_of_readNegative (text : List Char) :
    ∃ sign, text = sign ++ (readNegative text).2 ∧ WritesSign sign (readNegative text).1 := by
  fun_cases readNegative text with
  | case1 rest => exact ⟨['-'], rfl, .minus⟩
  | case2 rest => exact ⟨['+'], rfl, .plus⟩
  | case3 => exact ⟨[], rfl, .none⟩

theorem readNegative_append (hsign : WritesSign sign negative)
    (hrest : ∀ c ∈ rest.head?, c.isDigit ∨ c = '.') :
    readNegative (sign ++ rest) = (negative, rest) := by
  cases hsign with
  | none =>
      cases rest with
      | nil => rfl
      | cons c rest =>
          have hc := hrest c rfl
          rw [List.nil_append, readNegative]
          all_goals
            rintro _ heq
            obtain ⟨rfl, -⟩ := List.cons.inj heq
            revert hc
            decide
  | plus => rfl
  | minus => rfl

theorem IsDigits.head?_isDigit (hdigits : IsDigits digits) : ∀ c ∈ digits.head?, c.isDigit :=
  fun c hc => hdigits.isDigit c (List.mem_of_mem_head? hc)

theorem readInteger?_eq_some_iff {e : Int} :
    readInteger? text = some e ↔ WritesInteger text e := by
  rw [readInteger?]
  constructor
  · intro hread
    obtain ⟨sign, htext, hsign⟩ := exists_sign_of_readNegative text
    rw [htext]
    generalize readNegative text = found at hread hsign
    rcases found with ⟨negative, digits⟩
    cases hvalue : readDigits? digits with
    | none => simp [hvalue] at hread
    | some n =>
        obtain ⟨hdigits, rfl⟩ := readDigits?_eq_some_iff.mp hvalue
        simp only [hvalue, Option.bind_eq_bind, Option.bind_some, Option.pure_def,
          Option.map_some, Option.some.injEq] at hread
        rw [← hread]
        exact .mk hsign hdigits
  · rintro ⟨hsign, hdigits⟩
    simp only [readNegative_append hsign fun c hc => .inl (hdigits.head?_isDigit c hc),
      readDigits?_eq_some_iff.mpr ⟨hdigits, rfl⟩]
    rfl

theorem not_isExponentMark_of_isDigit {c : Char} (hdigit : c.isDigit ∨ c = '.') :
    isExponentMark c = false := by
  rcases hdigit with hdigit | rfl
  · rw [isExponentMark, Bool.or_eq_false_iff, beq_eq_false_iff_ne, beq_eq_false_iff_ne]
    constructor <;> rintro rfl <;> cases hdigit
  · rfl

theorem IsDigits.point_not_mem (hdigits : IsDigits digits) : '.' ∉ digits := by
  intro hmem
  cases hdigits.isDigit _ hmem

theorem readMantissa?_eq_some_iff :
    readMantissa? text = some (n, places) ↔
      ∃ digits, WritesMantissa text digits places ∧ IsDigits digits ∧
        Nat.ofDigitChars 10 digits 0 = n := by
  rw [readMantissa?]
  constructor
  · intro hread
    obtain ⟨value, hvalue, heq⟩ := Option.map_eq_some_iff.mp hread
    obtain ⟨rfl, rfl⟩ := Prod.mk.inj heq
    refine ⟨_, ?_, readDigits?_eq_some_iff.mp hvalue⟩
    rcases cut_cases (· ≠ '.') text with ⟨-, hwhole, hnone⟩ | ⟨c, fraction, hc, hrest, htext⟩
    · rw [hwhole, hnone, List.drop_nil, List.append_nil]
      exact .whole text
    · obtain rfl : c = '.' := by simpa using hc
      generalize text.takeWhile (· ≠ '.') = whole at htext ⊢
      rw [hrest, htext, List.drop_succ_cons, List.drop_zero]
      exact .point whole fraction
  · rintro ⟨digits, hmantissa, hdigits, rfl⟩
    have hread := readDigits?_eq_some_iff.mpr ⟨hdigits, rfl⟩
    have hpoint : ∀ c ∈ digits, decide (c ≠ '.') := by
      intro c hc
      rw [decide_eq_true_eq]
      rintro rfl
      exact hdigits.point_not_mem hc
    cases hmantissa with
    | whole =>
        obtain ⟨hwhole, hnone⟩ := cut_append hpoint [] nofun
        rw [List.append_nil] at hwhole hnone
        simp only [hwhole, hnone, List.drop_nil, List.append_nil, hread]
        rfl
    | point whole fraction =>
        obtain ⟨hwhole, hfraction⟩ := cut_append (p := (· ≠ '.'))
          (fun c hc => hpoint c (List.mem_append_left _ hc)) ('.' :: fraction) (by simp)
        simp only [hwhole, hfraction, List.drop_succ_cons, List.drop_zero, hread]
        rfl

theorem WritesMantissa.mem_cases (hmantissa : WritesMantissa text digits places)
    (hdigits : IsDigits digits) : ∀ c ∈ text, c.isDigit ∨ c = '.' := by
  intro c hc
  cases hmantissa with
  | whole => exact .inl (hdigits.isDigit c hc)
  | point whole fraction =>
      rcases List.mem_append.mp hc with hwhole | hfraction
      · exact .inl (hdigits.isDigit c (List.mem_append_left _ hwhole))
      · rcases List.mem_cons.mp hfraction with hpoint | hfraction
        · exact .inr hpoint
        · exact .inl (hdigits.isDigit c (List.mem_append_right _ hfraction))

theorem WritesMantissa.ne_nil (hmantissa : WritesMantissa text digits places)
    (hdigits : IsDigits digits) : text ≠ [] := by
  cases hmantissa with
  | whole => exact hdigits.ne_nil
  | point whole fraction => simp

end Parts

/-! ## Numbers -/

section Numbers

variable {text : List Char} {d : Decimal}

theorem isWritten_of_parse? (hparse : parse? text = some d) : d.IsWritten text := by
  obtain ⟨sign, htext, hsign⟩ := exists_sign_of_readNegative text
  rw [htext]
  rw [parse?] at hparse
  generalize readNegative text = found at hparse hsign
  rcases found with ⟨negative, unsigned⟩
  simp only at hparse hsign ⊢
  rcases cut_cases (fun c => !isExponentMark c) unsigned with
    ⟨-, hmantissa, hnone⟩ | ⟨mark, exponent, hmark, hrest, hunsigned⟩
  · rw [hmantissa, hnone] at hparse
    split at hparse
    next n places hread _ =>
      cases hparse
      obtain ⟨digits, hwrites, hdigits, rfl⟩ := readMantissa?_eq_some_iff.mp hread
      have hwritten := IsWritten.mk hsign hwrites hdigits .none
      rwa [List.append_nil, Int.zero_sub] at hwritten
    next hcons => cases hcons
    next => cases hparse
  · rw [hrest] at hparse
    rw [hunsigned]
    split at hparse
    next hnil => cases hnil
    next n places _ behind hread hcons =>
      cases hcons
      obtain ⟨digits, hwrites, hdigits, rfl⟩ := readMantissa?_eq_some_iff.mp hread
      obtain ⟨e, hinteger, rfl⟩ := Option.map_eq_some_iff.mp hparse
      have hmark : mark = 'e' ∨ mark = 'E' := by
        simpa [isExponentMark, or_iff_not_imp_left] using hmark
      exact .mk hsign hwrites hdigits (.some hmark (readInteger?_eq_some_iff.mp hinteger))
    next => cases hparse

theorem IsWritten.parse?_eq (hwritten : d.IsWritten text) : parse? text = some d := by
  rcases hwritten with
    @⟨sign, mantissa, digits, exponent, negative, places, e, hsign, hmantissa, hdigits, hexponent⟩
  have hchars := hmantissa.mem_cases hdigits
  have hhead : ∀ c ∈ (mantissa ++ exponent).head?, c.isDigit ∨ c = '.' := by
    obtain ⟨first, behind, hcons⟩ := List.exists_cons_of_ne_nil (hmantissa.ne_nil hdigits)
    rw [hcons]
    rintro c ⟨⟩
    exact hchars first (hcons ▸ List.mem_cons_self)
  have hread := readMantissa?_eq_some_iff.mpr ⟨digits, hmantissa, hdigits, rfl⟩
  have hbefore : ∀ c ∈ mantissa, !isExponentMark c := by
    intro c hc
    rw [not_isExponentMark_of_isDigit (hchars c hc)]
    rfl
  rw [parse?, readNegative_append hsign hhead]
  cases hexponent with
  | none =>
      obtain ⟨hfront, hnone⟩ := cut_append hbefore [] nofun
      simp only [hfront, hnone, hread, Int.zero_sub]
  | @some mark exponent e hmark hinteger =>
      have hmarked : ∀ c ∈ (mark :: exponent).head?, (!isExponentMark c) = false := by
        rintro c ⟨⟩
        rcases hmark with rfl | rfl <;> rfl
      obtain ⟨hfront, hrest⟩ := cut_append hbefore _ hmarked
      simp only [hfront, hrest, hread, readInteger?_eq_some_iff.mpr hinteger, Option.map_some]

theorem IsWritten.ne_nil (hwritten : d.IsWritten text) : text ≠ [] := by
  rcases hwritten with ⟨hsign, hmantissa, hdigits, hexponent⟩
  simp [hmantissa.ne_nil hdigits]

/-- Exactly what is written as a number is read, and as that number. -/
theorem parse?_eq_some_iff : parse? text = some d ↔ d.IsWritten text :=
  ⟨isWritten_of_parse?, IsWritten.parse?_eq⟩

end Numbers

end Decimal

end ThemeSheet

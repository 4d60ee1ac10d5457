import ThemeSheet.Proofs.DecimalText
import ThemeSheet.Proofs.Metadata
import ThemeSheet.Proofs.Reading
import ThemeSheet.Proofs.Rounding

/-!
# Vectors and unit sizes

A text is a vector if it has one to three pieces and each of them is written as a number that
rounds to a finite one.  If it is none, its first bad piece says why, and their count only if all
pieces are good.  A theme has the unit size of its last entry, or the default where that is empty
or no vector, and only the last of these is reported.
-/

namespace ThemeSheet

/-! ## Rows that are read one by one -/

section Rows

variable {ε α β : Type} {f : α → Except ε β} {row : List α} {read : List β} {err : ε}

theorem mapM_eq_ok_iff :
    row.mapM f = .ok read ↔ List.Forall₂ (fun a b => f a = .ok b) row read := by
  induction row generalizing read with
  | nil =>
      rw [List.mapM_nil, List.forall₂_nil_left_iff]
      exact ⟨fun hread => (Except.ok.inj hread).symm, fun hnil => by rw [hnil]; rfl⟩
  | cons a row ih =>
      rw [List.mapM_cons, List.forall₂_cons_left_iff]
      constructor
      · intro hread
        obtain ⟨b, hb, hrest⟩ := exists_of_bind_eq_ok hread
        obtain ⟨others, hothers, heq⟩ := exists_of_bind_eq_ok hrest
        exact ⟨b, others, hb, ih.mp hothers, (Except.ok.inj heq).symm⟩
      · rintro ⟨b, others, hb, hothers, rfl⟩
        rw [hb, ih.mpr hothers]
        rfl

/-- The first that cannot be read decides. -/
theorem mapM_eq_error_iff :
    row.mapM f = .error err ↔
      ∃ before a behind, row = before ++ a :: behind ∧
        (∀ earlier ∈ before, ∃ b, f earlier = .ok b) ∧ f a = .error err := by
  induction row with
  | nil =>
      constructor
      · intro hread
        cases hread
      · rintro ⟨before, a, behind, hrow, -⟩
        simp at hrow
  | cons a row ih =>
      rw [List.mapM_cons]
      constructor
      · intro hread
        rcases error_or_of_bind hread with ha | ⟨b, hb, hrest⟩
        · exact ⟨[], a, row, rfl, List.forall_mem_nil _, ha⟩
        · rcases error_or_of_bind hrest with hrow | ⟨others, -, hpure⟩
          · obtain ⟨before, bad, behind, rfl, hbefore, hbad⟩ := ih.mp hrow
            exact ⟨a :: before, bad, behind, rfl,
              List.forall_mem_cons.mpr ⟨⟨b, hb⟩, hbefore⟩, hbad⟩
          · cases hpure
      · rintro ⟨before, bad, behind, hrow, hbefore, hbad⟩
        cases before with
        | nil =>
            obtain ⟨rfl, rfl⟩ := List.cons.inj hrow
            rw [hbad]
            rfl
        | cons first before =>
            obtain ⟨rfl, rfl⟩ := List.cons.inj hrow
            obtain ⟨⟨b, hb⟩, hbefore⟩ := List.forall_mem_cons.mp hbefore
            rw [hb, ih.mpr ⟨before, bad, behind, rfl, hbefore, hbad⟩]
            rfl

end Rows

/-! ## Vectors -/

namespace Vector3

/-- Whether a piece is written as a number that rounds to a finite one. -/
def ReadsAs (piece : List Char) (x : Float32) : Prop :=
  ∃ d : Decimal, d.IsWritten piece ∧ d.RoundsTo x

/-- The vectors of one, two and three numbers. -/
inductive Fills : List Float32 → Vector3 → Prop where
  | one (x : Float32) : Fills [x] ⟨x, x, x⟩
  | two (x y : Float32) : Fills [x, y] ⟨x, y, 0⟩
  | three (x y z : Float32) : Fills [x, y, z] ⟨x, y, z⟩

/-- What the pieces of a text have to be like for a fault: the first bad piece is empty or
another that is no number, or there is none and the pieces are too many. -/
def Shows (pieces : List (List Char)) : VectorFault → Prop
  | .emptyComponent =>
      ∃ before behind, pieces = before ++ [] :: behind ∧
        ∀ piece ∈ before, ∃ x, ReadsAs piece x
  | .notANumber =>
      ∃ before piece behind, pieces = before ++ piece :: behind ∧
        (∀ earlier ∈ before, ∃ x, ReadsAs earlier x) ∧ piece ≠ [] ∧ ∀ x, ¬ReadsAs piece x
  | .wrongCount => (∀ piece ∈ pieces, ∃ x, ReadsAs piece x) ∧ 3 < pieces.length

/-- The reason for which pieces are refused, as it is reported. -/
def RefusedFor (pieces : List (List Char)) (reason : String) : Prop :=
  reason = "empty component" ∧ Shows pieces .emptyComponent ∨
    reason = "component is not a number" ∧ Shows pieces .notANumber ∨
    reason = "expected 1 to 3 components" ∧ Shows pieces .wrongCount

theorem refusedFor_message_iff {pieces : List (List Char)} {fault : VectorFault} :
    RefusedFor pieces fault.message ↔ Shows pieces fault := by
  cases fault <;> simp [RefusedFor, VectorFault.message]

section Pieces

variable {piece : List Char} {x : Float32} {fault : VectorFault}

theorem ReadsAs.ne_nil (hreads : ReadsAs piece x) : piece ≠ [] := by
  obtain ⟨d, hwritten, -⟩ := hreads
  exact hwritten.ne_nil

theorem namedBits?_cases {name : List Char} {bits : Nat} (hname : namedBits? name = some bits) :
    bits = infiniteBits ∨ bits = infiniteBits + 0x400000 := by
  rw [namedBits?] at hname
  split at hname
  next => exact .inl (Option.some.inj hname).symm
  next =>
    split at hname
    next => exact .inr (Option.some.inj hname).symm
    next => cases hname

theorem not_isFinite_of_namedBits? {name : List Char} {bits : Nat}
    (hname : namedBits? name = some bits) (negative : Bool) :
    ¬(signedFloat32 negative bits).isFinite := by
  rcases namedBits?_cases hname with rfl | rfl <;> cases negative <;> decide

/-- What is read for a piece is kept if it is finite, so names do not count. -/
theorem readsAs_iff :
    (readFloat32? piece).filter Float32.isFinite = some x ↔ ReadsAs piece x := by
  rw [Option.filter_eq_some_iff, readFloat32?]
  constructor
  · rintro ⟨hread, hfinite⟩
    split at hread
    next d hparse =>
      have hround : d.toFloat32 = x := Option.some.inj hread
      exact ⟨d, Decimal.parse?_eq_some_iff.mp hparse, Decimal.roundsTo_iff.mpr ⟨hround, hfinite⟩⟩
    next =>
      obtain ⟨bits, hname, rfl⟩ := Option.map_eq_some_iff.mp hread
      exact absurd hfinite (not_isFinite_of_namedBits? hname _)
  · rintro ⟨d, hwritten, hrounds⟩
    obtain ⟨hround, hfinite⟩ := Decimal.roundsTo_iff.mp hrounds
    rw [Decimal.parse?_eq_some_iff.mpr hwritten]
    exact ⟨congrArg some hround, hfinite⟩

theorem readPiece_eq_ok_iff : readPiece piece = .ok x ↔ ReadsAs piece x := by
  rw [readPiece, ← readsAs_iff]
  split
  next hempty =>
    refine ⟨nofun, fun hreads => ?_⟩
    exact absurd (List.isEmpty_iff.mp hempty) (readsAs_iff.mp hreads).ne_nil
  next =>
    split
    next found hfound => rw [hfound, Except.ok.injEq, Option.some.injEq]
    next hnone => rw [hnone]; exact ⟨nofun, nofun⟩

theorem readPiece_eq_error_iff :
    readPiece piece = .error fault ↔
      fault = .emptyComponent ∧ piece = [] ∨
        fault = .notANumber ∧ piece ≠ [] ∧ ∀ x, ¬ReadsAs piece x := by
  by_cases hempty : piece = []
  · subst hempty
    have hread : readPiece [] = .error .emptyComponent := rfl
    simp [hread, eq_comm]
  · have hnot : piece.isEmpty = false := by simpa using hempty
    cases hnumber : (readFloat32? piece).filter Float32.isFinite with
    | some x =>
        have hreads := readsAs_iff.mp hnumber
        rw [readPiece_eq_ok_iff.mpr hreads]
        simp only [hempty, and_false, false_or, reduceCtorEq, false_iff, not_and, not_forall,
          not_not]
        exact fun _ _ => ⟨x, hreads⟩
    | none =>
        have hnone : ∀ x, ¬ReadsAs piece x := by
          intro x hreads
          rw [readsAs_iff.mpr hreads] at hnumber
          cases hnumber
        have hread : readPiece piece = .error .notANumber := by
          simp only [readPiece, hnot, hnumber, Bool.false_eq_true, if_false]
        simp [hread, hempty, hnone, eq_comm]

end Pieces

section Texts

variable {value : String} {vector : Vector3} {numbers : List Float32} {fault : VectorFault}

theorem pieces_ne_nil (value : String) : pieces value ≠ [] := by
  rw [pieces, Ne, List.map_eq_nil_iff]
  exact List.splitOnP_ne_nil _ _

/-- The pieces are what stands between commas, without the blanks around it. -/
theorem exists_parts (value : String) :
    ∃ parts, value.toList = [','].intercalate parts ∧ (∀ part ∈ parts, ',' ∉ part) ∧
      List.Forall₂ IsTrimmed parts (pieces value) := by
  have hsplit : value.toList.splitOnP (· = ',') = value.toList.splitOn ',' := by
    rw [List.splitOn_eq_splitOnP]
    rfl
  refine ⟨value.toList.splitOn ',', (List.intercalate_splitOn ',').symm, ?_, ?_⟩
  · intro part hpart hcomma
    rw [← hsplit] at hpart
    simpa using eq_false_of_mem_splitOnP hpart ',' hcomma
  · rw [pieces, hsplit, List.forall₂_map_right_iff, List.forall₂_same]
    exact fun part _ => isTrimmed_trimBlank part

theorem ofComponents_eq_ok_iff : ofComponents numbers = .ok vector ↔ Fills numbers vector := by
  constructor
  · intro hnumbers
    unfold ofComponents at hnumbers
    split at hnumbers <;> cases hnumbers
    · exact .one _
    · exact .two _ _
    · exact .three _ _ _
  · rintro (_ | _ | _) <;> rfl

theorem ofComponents_eq_error_iff :
    ofComponents numbers = .error fault ↔
      fault = .wrongCount ∧ (numbers = [] ∨ 3 < numbers.length) := by
  match numbers with
  | [] | x :: y :: z :: w :: others => simp [ofComponents, eq_comm]
  | [x] | [x, y] | [x, y, z] => simp [ofComponents]

theorem forall₂_readsAs_iff {pieces : List (List Char)} :
    (∃ numbers, List.Forall₂ ReadsAs pieces numbers) ↔ ∀ piece ∈ pieces, ∃ x, ReadsAs piece x := by
  induction pieces with
  | nil => simp
  | cons piece pieces ih =>
      rw [List.forall_mem_cons, ← ih]
      simp only [List.forall₂_cons_left_iff]
      constructor
      · rintro ⟨_, x, numbers, hx, hnumbers, -⟩
        exact ⟨⟨x, hx⟩, numbers, hnumbers⟩
      · rintro ⟨⟨x, hx⟩, numbers, hnumbers⟩
        exact ⟨x :: numbers, x, numbers, hx, hnumbers, rfl⟩

theorem readPieces_eq_ok_iff {pieces : List (List Char)} :
    pieces.mapM readPiece = .ok numbers ↔ List.Forall₂ ReadsAs pieces numbers := by
  simp only [mapM_eq_ok_iff, readPiece_eq_ok_iff]

theorem readPieces_eq_error_iff {pieces : List (List Char)} :
    pieces.mapM readPiece = .error fault ↔ fault ≠ .wrongCount ∧ Shows pieces fault := by
  simp only [mapM_eq_error_iff, readPiece_eq_ok_iff, readPiece_eq_error_iff]
  cases fault <;> simp [Shows]

theorem shows_wrongCount_iff {pieces : List (List Char)} :
    Shows pieces .wrongCount ↔
      ∃ numbers, pieces.mapM readPiece = .ok numbers ∧ 3 < numbers.length := by
  rw [Shows, ← forall₂_readsAs_iff]
  simp only [readPieces_eq_ok_iff]
  constructor
  · rintro ⟨⟨numbers, hnumbers⟩, hcount⟩
    exact ⟨numbers, hnumbers, hnumbers.length_eq ▸ hcount⟩
  · rintro ⟨numbers, hnumbers, hcount⟩
    exact ⟨⟨numbers, hnumbers⟩, hnumbers.length_eq ▸ hcount⟩

/-- The count is looked at only once all pieces are read. -/
theorem ofPieces_eq_error_iff {pieces : List (List Char)} (hne : pieces ≠ []) :
    (pieces.mapM readPiece).bind ofComponents = .error fault ↔ Shows pieces fault := by
  by_cases hcount : fault = .wrongCount
  · subst hcount
    rw [shows_wrongCount_iff]
    constructor
    · intro hread
      rcases error_or_of_bind hread with hbad | ⟨numbers, hnumbers, hbad⟩
      · exact absurd rfl (readPieces_eq_error_iff.mp hbad).1
      · have hsome : numbers ≠ [] := by
          rintro rfl
          exact hne (List.forall₂_nil_right_iff.mp (readPieces_eq_ok_iff.mp hnumbers))
        exact ⟨numbers, hnumbers, (ofComponents_eq_error_iff.mp hbad).2.resolve_left hsome⟩
    · rintro ⟨numbers, hnumbers, hcount⟩
      rw [hnumbers]
      exact ofComponents_eq_error_iff.mpr ⟨rfl, .inr hcount⟩
  · constructor
    · intro hread
      rcases error_or_of_bind hread with hbad | ⟨numbers, -, hbad⟩
      · exact (readPieces_eq_error_iff.mp hbad).2
      · exact absurd (ofComponents_eq_error_iff.mp hbad).1 hcount
    · intro hshows
      rw [readPieces_eq_error_iff.mpr ⟨hcount, hshows⟩]
      rfl

theorem parse_eq_ok_iff :
    parse value = .ok vector ↔
      ∃ numbers, List.Forall₂ ReadsAs (pieces value) numbers ∧ Fills numbers vector := by
  simp only [← readPieces_eq_ok_iff, ← ofComponents_eq_ok_iff]
  rw [parse]
  cases (pieces value).mapM readPiece with
  | error fault => simp [Except.bind, Except.mapError]
  | ok numbers =>
      change (ofComponents numbers).mapError _ = _ ↔ _
      cases hvector : ofComponents numbers <;> simp [Except.mapError, hvector]

theorem parse_eq_error_iff {err : VectorError} :
    parse value = .error err ↔
      err.value = value ∧ RefusedFor (pieces value) err.reason.message := by
  rw [refusedFor_message_iff, ← ofPieces_eq_error_iff (pieces_ne_nil value), parse]
  rcases err with ⟨text, reason⟩
  cases ((pieces value).mapM readPiece).bind ofComponents with
  | error fault => simp [Except.mapError, eq_comm]
  | ok vector => simp [Except.mapError]

end Texts

end Vector3

/-! ## Unit sizes -/

section UnitSizes

variable {options : LoadOptions} {source value : String} {rules : List Rule} {theme : Theme}

theorem resolveUnitSize_of_empty {entry : Option String}
    (hempty : ∀ value, entry = some value → value = "") :
    options.resolveUnitSize source entry = (options.unitSize, []) := by
  cases entry with
  | none => rfl
  | some value =>
      rw [hempty value rfl]
      rfl

theorem resolveUnitSize_of_ok {vector : Vector3} (hvalue : value ≠ "")
    (hparse : Vector3.parse value = .ok vector) :
    options.resolveUnitSize source (some value) = (vector, []) := by
  rw [LoadOptions.resolveUnitSize, if_neg (by simpa using hvalue), hparse]

theorem resolveUnitSize_of_error {err : VectorError} (hvalue : value ≠ "")
    (hparse : Vector3.parse value = .error err) :
    options.resolveUnitSize source (some value) =
      (options.unitSize,
        [.unitSizeRejected err, options.report source (.invalidUnitSize value)]) := by
  rw [LoadOptions.resolveUnitSize, if_neg (by simpa using hvalue), hparse]

theorem unitSize_of_build_eq_ok (hbuild : (options.build source rules).1 = .ok theme) :
    theme.unitSize =
        (options.resolveUnitSize source (lastValue? (themeEntries rules) "UnitSize")).1 ∧
      diagnostics (options.build source rules).2 =
        diagnostics (options.resolveUnitSize source
          (lastValue? (themeEntries rules) "UnitSize")).2 := by
  obtain ⟨name, hname⟩ := exists_name_of_build_eq_ok hbuild
  refine ⟨?_, diagnostics_of_name_eq_some hname⟩
  rw [build_of_name_eq_some hname] at hbuild
  cases hbuild
  rfl

end UnitSizes

/-- A text is a vector exactly if it has one to three pieces and all are numbers, and else its
first bad piece says why, or their count if there is none.  A theme has the vector of its last
entry that is not empty, or the default; what is reported is an entry that is no vector. -/
theorem unitSize_eq_vector_or_default (text : String) (options : LoadOptions)
    (source : String) (rules : List Rule) :
    (∃ parts, text.toList = [','].intercalate parts ∧ (∀ part ∈ parts, ',' ∉ part) ∧
      List.Forall₂ IsTrimmed parts (Vector3.pieces text)) ∧
    (∀ vector, Vector3.parse text = .ok vector ↔
      ∃ numbers, List.Forall₂ Vector3.ReadsAs (Vector3.pieces text) numbers ∧
        Vector3.Fills numbers vector) ∧
    (∀ err, Vector3.parse text = .error err ↔
      err.value = text ∧
        Vector3.RefusedFor (Vector3.pieces text) err.reason.message) ∧
    ∀ theme, (options.build source rules).1 = .ok theme →
      (∀ value vector, LastDeclared rules "UnitSize" value → value ≠ "" →
        Vector3.parse value = .ok vector →
        theme.unitSize = vector ∧ diagnostics (options.build source rules).2 = []) ∧
      (∀ value err, LastDeclared rules "UnitSize" value → value ≠ "" →
        Vector3.parse value = .error err →
        theme.unitSize = options.unitSize ∧
          diagnostics (options.build source rules).2 =
            [.ofFailure source (.invalidUnitSize value)]) ∧
      ((∀ value, LastDeclared rules "UnitSize" value → value = "") →
        theme.unitSize = options.unitSize ∧
          diagnostics (options.build source rules).2 = []) := by
  refine ⟨Vector3.exists_parts text, fun vector => Vector3.parse_eq_ok_iff,
    fun err => Vector3.parse_eq_error_iff, fun theme hbuild => ?_⟩
  obtain ⟨hunitSize, hreports⟩ := unitSize_of_build_eq_ok hbuild
  rw [hunitSize, hreports]
  refine ⟨?_, ?_, ?_⟩
  · intro value vector hlast hvalue hparse
    rw [lastValue?_eq_some_iff.mpr hlast, resolveUnitSize_of_ok hvalue hparse]
    exact ⟨rfl, rfl⟩
  · intro value err hlast hvalue hparse
    rw [lastValue?_eq_some_iff.mpr hlast, resolveUnitSize_of_error hvalue hparse]
    exact ⟨rfl, rfl⟩
  · intro hempty
    rw [resolveUnitSize_of_empty fun value hlast =>
      hempty value (lastValue?_eq_some_iff.mp hlast)]
    exact ⟨rfl, rfl⟩

/-- The rules of a theme with a unit size. -/
def sizedRules (value : String) : List Rule :=
  [⟨["Theme"], [⟨"UnitSize", "wide"⟩, ⟨"Name", "Plain"⟩, ⟨"UnitSize", value⟩]⟩]

theorem exists_build_sizedRules (value : String) :
    ∃ theme, (({} : LoadOptions).build "plain.css" (sizedRules value)).1 = .ok theme := by
  have hname : lastValue? (themeEntries (sizedRules value)) "Name" = some "Plain" := rfl
  rw [build_of_name_eq_some hname]
  exact ⟨_, rfl⟩

/-- One entry has a sign, a point and an exponent; the other has a number that is too large. -/
theorem unitSize_eq_vector_or_default_sizedRules :
    (∃ theme, (({} : LoadOptions).build "plain.css" (sizedRules "-1.5, 25e-1")).1 = .ok theme ∧
      theme.unitSize = ⟨-1.5, 2.5, 0⟩) ∧
    ∃ theme, (({} : LoadOptions).build "plain.css" (sizedRules "8,1e99,,4")).1 = .ok theme ∧
      theme.unitSize = ⟨40, 40, 0⟩ ∧
      Vector3.RefusedFor (Vector3.pieces "8,1e99,,4") "component is not a number" ∧
      diagnostics (({} : LoadOptions).build "plain.css" (sizedRules "8,1e99,,4")).2 =
        [⟨.warning, .invalidUnitSize, "plain.css",
          "Unable to parse UnitSize attribute value \"8,1e99,,4\"."⟩] := by
  have hlast : ∀ value, LastDeclared (sizedRules value) "UnitSize" value := fun value =>
    ⟨[⟨"UnitSize", "wide"⟩, ⟨"Name", "Plain"⟩], [], rfl, List.forall_mem_nil _⟩
  obtain ⟨-, hparse, -, hsized⟩ :=
    unitSize_eq_vector_or_default "-1.5, 25e-1" {} "plain.css" (sizedRules "-1.5, 25e-1")
  obtain ⟨-, -, hfault, hunsized⟩ :=
    unitSize_eq_vector_or_default "8,1e99,,4" {} "plain.css" (sizedRules "8,1e99,,4")
  have hvector : Vector3.parse "-1.5, 25e-1" = .ok ⟨-1.5, 2.5, 0⟩ := by
    have hfirst : Vector3.ReadsAs ['-', '1', '.', '5'] (-1.5) :=
      Vector3.readsAs_iff.mp (by decide +kernel)
    have hsecond : Vector3.ReadsAs ['2', '5', 'e', '-', '1'] 2.5 :=
      Vector3.readsAs_iff.mp (by decide +kernel)
    exact (hparse _).mpr ⟨[-1.5, 2.5], .cons hfirst (.cons hsecond .nil), .two _ _⟩
  have hrefused : Vector3.parse "8,1e99,,4" = .error ⟨"8,1e99,,4", .notANumber⟩ := by
    have hfirst : Vector3.ReadsAs ['8'] 8 := Vector3.readsAs_iff.mp (by decide +kernel)
    have hnone : ∀ x, ¬Vector3.ReadsAs ['1', 'e', '9', '9'] x := by
      intro x hreads
      have hread : (readFloat32? ['1', 'e', '9', '9']).filter Float32.isFinite = none := by
        decide +kernel
      rw [Vector3.readsAs_iff.mpr hreads] at hread
      cases hread
    refine (hfault _).mpr ⟨rfl, .inr (.inl ⟨rfl, [['8']], _, [[], ['4']], rfl, ?_, ?_, hnone⟩)⟩
    · exact List.forall_mem_singleton.mpr ⟨8, hfirst⟩
    · exact List.cons_ne_nil _ _
  obtain ⟨theme, hbuild⟩ := exists_build_sizedRules "-1.5, 25e-1"
  obtain ⟨plain, hplain⟩ := exists_build_sizedRules "8,1e99,,4"
  refine ⟨⟨theme, hbuild, ((hsized _ hbuild).1 _ _ (hlast _) (by decide) hvector).1⟩,
    plain, hplain, ?_⟩
  obtain ⟨hunitSize, hreports⟩ := (hunsized _ hplain).2.1 _ _ (hlast _) (by decide) hrefused
  exact ⟨hunitSize, ((hfault _).mp hrefused).2, hreports⟩

end ThemeSheet

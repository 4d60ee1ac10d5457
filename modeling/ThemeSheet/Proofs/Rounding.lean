import ThemeSheet.Proofs.SinglePrecision
import Mathlib.Data.Rat.Floor

/-!
# The nearest number

A number rounds to the finite one that none is nearer than.  If two are as near, it rounds to the
one with an even mantissa, so it rounds to one number only.  What lies halfway between the largest
finite number and the next one that would be, or beyond, overflows and rounds to none.  A decimal
number is computed to be what it rounds to, and infinite if it overflows.
-/

namespace ThemeSheet

/-! ## Integers and powers of two -/

section Integers

variable {r : ℚ} {n : Int}

theorem roundHalfEven_cases (r : ℚ) :
    roundHalfEven r = ⌊r⌋ ∧ (r - ⌊r⌋ < 1 / 2 ∨ r - ⌊r⌋ = 1 / 2 ∧ ⌊r⌋ % 2 = 0) ∨
      roundHalfEven r = ⌊r⌋ + 1 ∧ (1 / 2 < r - ⌊r⌋ ∨ r - ⌊r⌋ = 1 / 2 ∧ ⌊r⌋ % 2 = 1) := by
  unfold roundHalfEven
  simp only
  split
  next hdown => exact .inl ⟨rfl, hdown⟩
  next hup =>
    refine .inr ⟨rfl, ?_⟩
    rw [not_or, not_lt] at hup
    rcases hup.1.lt_or_eq with hlt | heq
    · exact .inl hlt
    · have hodd : ¬⌊r⌋ % 2 = 0 := fun heven => hup.2 ⟨heq.symm, heven⟩
      exact .inr ⟨heq.symm, by omega⟩

theorem abs_roundHalfEven_sub_le (r : ℚ) : |roundHalfEven r - r| ≤ 1 / 2 := by
  have hfloor := Int.floor_le r
  have hnext := Int.lt_floor_add_one r
  rw [abs_le]
  rcases roundHalfEven_cases r with ⟨hround, hrest⟩ | ⟨hround, hrest⟩
  · rw [hround]
    constructor <;> rcases hrest with hrest | ⟨hrest, -⟩ <;> linarith
  · rw [hround]
    push_cast
    constructor <;> rcases hrest with hrest | ⟨hrest, -⟩ <;> linarith

/-- Halfway between two integers the even one is taken. -/
theorem roundHalfEven_mod_two (hhalf : |roundHalfEven r - r| = 1 / 2) :
    roundHalfEven r % 2 = 0 := by
  rcases roundHalfEven_cases r with ⟨hround, hrest⟩ | ⟨hround, hrest⟩
  · rcases hrest with hrest | ⟨-, heven⟩
    · have hfloor := Int.floor_le r
      rw [hround, abs_of_nonpos (by linarith)] at hhalf
      linarith
    · rw [hround, heven]
  · rcases hrest with hrest | ⟨-, hodd⟩
    · have hnext := Int.lt_floor_add_one r
      rw [hround, abs_of_nonneg (by push_cast; linarith)] at hhalf
      push_cast at hhalf
      linarith
    · omega

theorem le_roundHalfEven (hle : n ≤ r) : n ≤ roundHalfEven r := by
  have hnear := abs_le.mp (abs_roundHalfEven_sub_le r)
  have hlt : (n : ℚ) < roundHalfEven r + 1 := by linarith
  exact Int.lt_add_one_iff.mp (by exact_mod_cast hlt)

theorem roundHalfEven_le (hle : r ≤ n) : roundHalfEven r ≤ n := by
  have hnear := abs_le.mp (abs_roundHalfEven_sub_le r)
  have hlt : (roundHalfEven r : ℚ) < n + 1 := by linarith
  exact Int.lt_add_one_iff.mp (by exact_mod_cast hlt)

end Integers

section Multiples

variable {q u : ℚ}

theorem abs_roundHalfEven_mul_sub (hu : 0 < u) :
    |roundHalfEven (q / u) * u - q| = |roundHalfEven (q / u) - q / u| * u := by
  calc |roundHalfEven (q / u) * u - q| = |(roundHalfEven (q / u) - q / u) * u| := by
        rw [sub_mul, div_mul_cancel₀ q hu.ne']
    _ = |roundHalfEven (q / u) - q / u| * u := by rw [abs_mul, abs_of_pos hu]

theorem abs_roundHalfEven_mul_sub_le (hu : 0 < u) :
    |roundHalfEven (q / u) * u - q| ≤ u / 2 := by
  rw [abs_roundHalfEven_mul_sub hu]
  calc |roundHalfEven (q / u) - q / u| * u ≤ 1 / 2 * u := by
        gcongr
        exact abs_roundHalfEven_sub_le _
    _ = u / 2 := by ring

theorem roundHalfEven_div_mod_two (hu : 0 < u)
    (hhalf : |roundHalfEven (q / u) * u - q| = u / 2) : roundHalfEven (q / u) % 2 = 0 := by
  apply roundHalfEven_mod_two (r := q / u)
  apply mul_right_cancel₀ hu.ne'
  rw [← abs_roundHalfEven_mul_sub hu, hhalf]
  ring

end Multiples

theorem div_bounds {a b m n : Nat} (hm : 2 ^ a ≤ m ∧ m < 2 ^ (a + 1))
    (hn : 2 ^ b ≤ n ∧ n < 2 ^ (b + 1)) :
    (2 : ℚ) ^ ((a : Int) - b - 1) ≤ m / n ∧ (m / n : ℚ) < 2 ^ ((a : Int) - b + 1) := by
  have hmLow : (2 : ℚ) ^ a ≤ m := by exact_mod_cast hm.1
  have hmHigh : (m : ℚ) < 2 ^ (a + 1) := by exact_mod_cast hm.2
  have hnLow : (2 : ℚ) ^ b ≤ n := by exact_mod_cast hn.1
  have hnHigh : (n : ℚ) ≤ 2 ^ (b + 1) := by exact_mod_cast hn.2.le
  have hpos : (0 : ℚ) < n := lt_of_lt_of_le (by positivity) hnLow
  constructor
  · rw [le_div_iff₀ hpos]
    calc (2 : ℚ) ^ ((a : Int) - b - 1) * n ≤ 2 ^ ((a : Int) - b - 1) * 2 ^ (b + 1) := by gcongr
      _ = 2 ^ a := by
        rw [← zpow_natCast, ← zpow_natCast, ← zpow_add₀ two_ne_zero]
        congr 1
        push_cast
        ring
      _ ≤ m := hmLow
  · rw [div_lt_iff₀ hpos]
    calc (m : ℚ) < 2 ^ (a + 1) := hmHigh
      _ = 2 ^ ((a : Int) - b + 1) * 2 ^ b := by
        rw [← zpow_natCast, ← zpow_natCast, ← zpow_add₀ two_ne_zero]
        congr 1
        push_cast
        ring
      _ ≤ 2 ^ ((a : Int) - b + 1) * n := by gcongr

theorem log2_bounds {n : Nat} (hn : n ≠ 0) : 2 ^ n.log2 ≤ n ∧ n < 2 ^ (n.log2 + 1) :=
  ⟨Nat.log2_self_le hn, Nat.lt_log2_self⟩

theorem binaryExponent_spec {q : ℚ} (hq : 0 < q) :
    (2 : ℚ) ^ binaryExponent q ≤ q ∧ q < (2 : ℚ) ^ (binaryExponent q + 1) := by
  have hnum : 0 < q.num := Rat.num_pos.mpr hq
  have hfraction : (q.num.natAbs : ℚ) / q.den = q := by
    rw [Nat.cast_natAbs, abs_of_pos hnum]
    exact q.num_div_den
  obtain ⟨hlow, hhigh⟩ := div_bounds (log2_bounds (Int.natAbs_ne_zero.mpr hnum.ne'))
    (log2_bounds q.den_nz)
  rw [hfraction] at hlow hhigh
  unfold binaryExponent
  simp only
  split
  next hestimate => exact ⟨hestimate, hhigh⟩
  next hestimate =>
    refine ⟨hlow, ?_⟩
    rw [sub_add_cancel]
    exact not_le.mp hestimate

/-! ## Nearest bits -/

/-- From here on a number rounds to more than the largest finite one. -/
def overflow : ℚ := 2 ^ 128 - 2 ^ 103

namespace Binary

/-- Whether bits say the finite number that is nearest, with an even mantissa if two are. -/
structure IsNearest (q : ℚ) (bits : Nat) : Prop where
  nearest : ∀ others < infiniteBits, |(ofBits bits).value - q| ≤ |(ofBits others).value - q|
  even : ∀ others < infiniteBits, others ≠ bits →
    |(ofBits others).value - q| = |(ofBits bits).value - q| → bits % 2 = 0

/-- Whether a mantissa is the nearest one of its place, and the place no coarser than needed. -/
structure Nears (q : ℚ) (mantissa place : Nat) : Prop extends Fits mantissa place where
  near : |mantissa * unit place - q| ≤ unit place / 2
  even : |mantissa * unit place - q| = unit place / 2 → mantissa % 2 = 0
  fine : place = 0 ∨ hiddenBit * unit place ≤ q

section Nearest

variable {q : ℚ} {mantissa place : Nat}

/-- Every other number is a unit away, or lies below the nearest one as this does below `q`. -/
theorem Nears.gap {others : Nat} (hnears : Nears q mantissa place)
    (hbits : place * hiddenBit + mantissa < signBit) (hothers : others < signBit)
    (hne : others ≠ place * hiddenBit + mantissa) :
    mantissa * unit place + unit place ≤ (ofBits others).value ∨
      (ofBits others).value + unit place ≤ mantissa * unit place ∨
      (ofBits others).value < mantissa * unit place ∧ mantissa * unit place ≤ q := by
  rw [← value_ofBits hnears.toFits hbits]
  rcases hne.lt_or_gt with hbelow | habove
  · -- Only the least mantissa of a place has smaller units below it.
    by_cases hgap : place = 0 ∨ hiddenBit < mantissa
    · exact .inr (.inl (value_add_unit_le_of_lt hnears.toFits hgap hbelow hbits))
    · rw [not_or, not_lt] at hgap
      have hmantissa : mantissa = hiddenBit :=
        le_antisymm hgap.2 (hnears.normal.resolve_left hgap.1)
      refine .inr (.inr ⟨value_lt_value hbelow hbits, ?_⟩)
      rw [value_ofBits hnears.toFits hbits, hmantissa]
      exact hnears.fine.resolve_left hgap.1
  · exact .inl (value_add_unit_le hnears.toFits habove hothers)

theorem le_of_gap {v w u : ℚ} (hnear : |v - q| ≤ u / 2)
    (hgap : v + u ≤ w ∨ w + u ≤ v ∨ w < v ∧ v ≤ q) :
    |v - q| ≤ |w - q| ∧ (|w - q| = |v - q| → |v - q| = u / 2) := by
  have hbounds := abs_le.mp hnear
  rcases hgap with hgap | hgap | ⟨hbelow, habove⟩
  · have hfar : u / 2 ≤ |w - q| := le_abs.mpr (.inl (by linarith))
    exact ⟨hnear.trans hfar, fun heq => le_antisymm hnear (heq ▸ hfar)⟩
  · have hfar : u / 2 ≤ |w - q| := le_abs.mpr (.inr (by linarith))
    exact ⟨hnear.trans hfar, fun heq => le_antisymm hnear (heq ▸ hfar)⟩
  · have hlt : |v - q| < |w - q| := by
      rw [abs_of_nonpos (by linarith), abs_of_nonpos (by linarith)]
      linarith
    exact ⟨hlt.le, fun heq => absurd heq hlt.ne'⟩

theorem Nears.isNearest (hnears : Nears q mantissa place)
    (hbits : place * hiddenBit + mantissa < infiniteBits) :
    IsNearest q (place * hiddenBit + mantissa) := by
  have hlt := hbits.trans infiniteBits_lt_signBit
  have hvalue := value_ofBits hnears.toFits hlt
  constructor
  · intro others hothers
    by_cases hne : others = place * hiddenBit + mantissa
    · rw [hne]
    · rw [hvalue]
      exact (le_of_gap hnears.near
        (hnears.gap hlt (hothers.trans infiniteBits_lt_signBit) hne)).1
  · intro others hothers hne htie
    rw [hvalue] at htie
    have heven := hnears.even ((le_of_gap hnears.near
      (hnears.gap hlt (hothers.trans infiniteBits_lt_signBit) hne)).2 htie)
    simp only [hiddenBit]
    omega

theorem isNearest_zero (hpos : 0 ≤ q) (hlt : q < unit 0 / 2) : IsNearest q 0 := by
  have hfits : Fits 0 0 := ⟨Nat.zero_le _, .inl rfl⟩
  have hnear : |((0 : Nat) : ℚ) * unit 0 - q| < unit 0 / 2 := by
    rw [Nat.cast_zero, zero_mul, zero_sub, abs_neg, abs_of_nonneg hpos]
    exact hlt
  have hnears : Nears q 0 0 := ⟨hfits, hnear.le, fun _ => rfl, .inl rfl⟩
  exact hnears.isNearest (by decide)

theorem Nears.lt_overflow (hnears : Nears q mantissa place)
    (hbits : place * hiddenBit + mantissa < infiniteBits) : q < overflow := by
  have hq : q ≤ mantissa * unit place + unit place / 2 := by
    linarith [(abs_le.mp hnears.near).1]
  have hle := hnears.le
  have hnormal := hnears.normal
  simp only [hiddenBit, infiniteBits] at hbits hle hnormal
  by_cases hplace : place ≤ 252
  · have hunit : unit place ≤ 2 ^ 103 := (unit_mono hplace).trans (by norm_num [unit])
    have hmantissa : (mantissa : ℚ) ≤ 2 ^ 24 := by exact_mod_cast hle
    have hpos := (unit_pos place).le
    calc q ≤ mantissa * unit place + unit place / 2 := hq
      _ ≤ 2 ^ 24 * 2 ^ 103 + 2 ^ 103 / 2 := by gcongr
      _ < overflow := by norm_num [overflow]
  · obtain rfl : place = 253 := by omega
    have hunit : unit 253 = 2 ^ 104 := by norm_num [unit]
    -- Halfway to what is infinite the odd mantissa is given up.
    by_cases hlast : mantissa = 2 ^ 24 - 1
    · have hne : |mantissa * unit 253 - q| ≠ unit 253 / 2 := by
        intro htie
        have heven := hnears.even htie
        omega
      have hlt := (abs_lt.mp (lt_of_le_of_ne hnears.near hne)).1
      rw [hlast, hunit] at hlt
      norm_num [overflow] at hlt ⊢
      linarith
    · have hmantissa : (mantissa : ℚ) ≤ 16777214 := by
        have hbelow : mantissa ≤ 16777214 := by omega
        exact_mod_cast hbelow
      rw [hunit] at hq
      calc q ≤ mantissa * 2 ^ 104 + 2 ^ 104 / 2 := hq
        _ ≤ 16777214 * 2 ^ 104 + 2 ^ 104 / 2 := by gcongr
        _ < overflow := by norm_num [overflow]

theorem Nears.overflow_le (hnears : Nears q mantissa place)
    (hbits : infiniteBits ≤ place * hiddenBit + mantissa) : overflow ≤ q := by
  have hle := hnears.le
  simp only [hiddenBit, infiniteBits] at hbits hle
  by_cases hplace : place = 253
  · subst hplace
    obtain rfl : mantissa = 2 ^ 24 := by omega
    have hunit : unit 253 = 2 ^ 104 := by norm_num [unit]
    have hq := (abs_le.mp hnears.near).2
    rw [hunit] at hq
    norm_num [overflow] at hq ⊢
    linarith
  · have hunit : 2 ^ 105 ≤ unit place := by
      have hmono : unit 254 ≤ unit place := unit_mono (by omega)
      refine le_trans ?_ hmono
      norm_num [unit]
    calc overflow ≤ 2 ^ 23 * 2 ^ 105 := by norm_num [overflow]
      _ ≤ 2 ^ 23 * unit place := by gcongr
      _ = hiddenBit * unit place := by norm_num [hiddenBit]
      _ ≤ q := hnears.fine.resolve_left (by omega)

/-- A number is measured in units that leave twenty-four bits, or in the least unit. -/
theorem exists_place (hq : 0 < q) :
    ∃ place : Nat, max (binaryExponent q - 23) (-149) = (place : Int) - 149 ∧
      q ≤ 2 * hiddenBit * unit place ∧ (place = 0 ∨ hiddenBit * unit place ≤ q) := by
  obtain ⟨hlow, hhigh⟩ := binaryExponent_spec hq
  obtain ⟨place, hplace⟩ : ∃ place : Nat,
      max (binaryExponent q - 23) (-149) = (place : Int) - 149 :=
    ⟨(max (binaryExponent q - 23) (-149) + 149).toNat, by omega⟩
  have hhidden (n : Int) : (hiddenBit : ℚ) * 2 ^ n = 2 ^ (n + 23) := by
    rw [zpow_add₀ two_ne_zero, mul_comm]
    norm_num [hiddenBit]
  refine ⟨place, hplace, ?_, ?_⟩
  · have hexponent : binaryExponent q + 1 ≤ (place : Int) - 149 + 23 + 1 := by omega
    calc q ≤ 2 ^ (binaryExponent q + 1) := hhigh.le
      _ ≤ 2 ^ ((place : Int) - 149 + 23 + 1) := zpow_le_zpow_right₀ one_le_two hexponent
      _ = 2 * hiddenBit * unit place := by
        rw [zpow_add_one₀ two_ne_zero, ← hhidden, unit]
        ring
  · refine or_iff_not_imp_left.mpr fun hne => ?_
    have hexponent : (place : Int) - 149 + 23 = binaryExponent q := by omega
    rw [unit, hhidden, hexponent]
    exact hlow

theorem exists_nears (hq : 0 < q) :
    ∃ mantissa place, Nears q mantissa place ∧
      (nearest q).bits = place * hiddenBit + mantissa := by
  obtain ⟨place, hplace, hhigh, hfine⟩ := exists_place hq
  have hunit := unit_pos place
  have hscaled : ((0 : Int) : ℚ) ≤ q / unit place := by
    rw [Int.cast_zero]
    positivity
  obtain ⟨mantissa, hmantissa⟩ := Int.eq_ofNat_of_zero_le (le_roundHalfEven hscaled)
  have hnear := abs_roundHalfEven_mul_sub_le (q := q) hunit
  have heven := roundHalfEven_div_mod_two (q := q) hunit
  rw [hmantissa, Int.cast_natCast] at hnear heven
  have hle : (mantissa : Int) ≤ (2 * hiddenBit : Nat) := by
    rw [← hmantissa]
    apply roundHalfEven_le
    rw [div_le_iff₀ hunit]
    exact_mod_cast hhigh
  have hnormal : place = 0 ∨ (hiddenBit : Int) ≤ mantissa := by
    refine hfine.imp_right fun hlow => ?_
    rw [← hmantissa]
    apply le_roundHalfEven
    rw [le_div_iff₀ hunit]
    exact_mod_cast hlow
  refine ⟨mantissa, place, ⟨⟨?_, ?_⟩, hnear, fun htie => ?_, hfine⟩, ?_⟩
  · exact_mod_cast hle
  · exact_mod_cast hnormal
  · exact_mod_cast heven htie
  · have hexponent : ((place : Int) - 149 + 149).toNat = place := by omega
    rw [nearest, hplace, bits, hexponent, ← unit, hmantissa, Int.toNat_natCast]

theorem IsNearest.le {bits others : Nat} (hbits : IsNearest q bits)
    (hothers : IsNearest q others) (hfinite : others < infiniteBits) : others ≤ bits := by
  by_contra hnot
  have hlt : bits < others := not_le.mp hnot
  have hsign := hfinite.trans infiniteBits_lt_signBit
  have htie : |(ofBits bits).value - q| = |(ofBits others).value - q| :=
    le_antisymm (hbits.nearest others hfinite) (hothers.nearest bits (hlt.trans hfinite))
  have heven := hbits.even others hfinite hlt.ne' htie.symm
  have hotherEven := hothers.even bits (hlt.trans hfinite) hlt.ne htie
  -- Both are even, so there is a number between them, and it is nearer than they are.
  have hbelow : (ofBits bits).value < (ofBits (bits + 1)).value :=
    value_lt_value (Nat.lt_succ_self bits) (by omega)
  have habove : (ofBits (bits + 1)).value < (ofBits others).value :=
    value_lt_value (by omega) hsign
  have hbetween := hbits.nearest (bits + 1) (by omega)
  have hmiddle : |(ofBits (bits + 1)).value - q| < |(ofBits bits).value - q| := by
    rcases abs_eq_abs.mp htie with heq | heq
    · linarith
    · rw [abs_of_neg (show (ofBits bits).value - q < 0 by linarith), abs_lt]
      constructor <;> linarith
  exact absurd hbetween (not_le.mpr hmiddle)

theorem IsNearest.unique {bits others : Nat} (hbits : IsNearest q bits)
    (hothers : IsNearest q others) (hlt : bits < infiniteBits) (hotherLt : others < infiniteBits) :
    bits = others :=
  le_antisymm (hothers.le hbits hlt) (hbits.le hothers hotherLt)

end Nearest

end Binary

/-! ## Decimal numbers -/

namespace Decimal

/-- Whether a number of single precision is the one that a decimal number rounds to: a finite one
of the same sign that none is nearer than, with an even mantissa if another is as near.  There is
none where the decimal number overflows. -/
structure RoundsTo (d : Decimal) (x : Float32) : Prop where
  isFinite : x.isFinite
  negative : signBit ≤ x.toBits.toNat ↔ d.negative
  lt_overflow : d.magnitude < overflow
  nearest : ∀ y : Float32, y.isFinite →
    |(Binary.ofFloat32 x).value - d.magnitude| ≤ |(Binary.ofFloat32 y).value - d.magnitude|
  even : ∀ y : Float32, y.isFinite → (Binary.ofFloat32 y).value ≠ (Binary.ofFloat32 x).value →
    |(Binary.ofFloat32 y).value - d.magnitude| = |(Binary.ofFloat32 x).value - d.magnitude| →
    (Binary.ofFloat32 x).mantissa % 2 = 0

section Magnitudes

variable {d : Decimal}

theorem magnitude_nonneg (d : Decimal) : 0 ≤ d.magnitude := by
  unfold magnitude
  positivity

theorem digits_bounds {n : Nat} (hn : n ≠ 0) :
    10 ^ ((decimalDigits n).length - 1) ≤ n ∧ n < 10 ^ (decimalDigits n).length := by
  have hlength : 0 < (decimalDigits n).length := Nat.length_toDigits_pos
  constructor
  · by_cases hone : (decimalDigits n).length = 1
    · rw [hone]
      exact Nat.one_le_iff_ne_zero.mpr hn
    · by_contra hlt
      have hshort := (Nat.length_toDigits_le_iff (b := 10) (n := n)
        (k := (decimalDigits n).length - 1) (by decide) (by omega)).mpr (not_le.mp hlt)
      change (decimalDigits n).length ≤ _ at hshort
      omega
  · exact (Nat.length_toDigits_le_iff (by decide) hlength).mp le_rfl

theorem magnitude_bounds (hne : d.coefficient ≠ 0) :
    (10 : ℚ) ^ (d.pointPosition - 1) ≤ d.magnitude ∧ d.magnitude < 10 ^ d.pointPosition := by
  have hlength : 0 < (decimalDigits d.coefficient).length := Nat.length_toDigits_pos
  obtain ⟨hlow, hhigh⟩ := digits_bounds hne
  have hten : (10 : ℚ) ≠ 0 := by norm_num
  rw [magnitude, pointPosition]
  constructor
  · have hexponent : ((decimalDigits d.coefficient).length : Int) + d.exponent - 1 =
        ((decimalDigits d.coefficient).length - 1 : Nat) + d.exponent := by omega
    rw [hexponent, zpow_add₀ hten, zpow_natCast]
    gcongr
    exact_mod_cast hlow
  · rw [zpow_add₀ hten, zpow_natCast]
    gcongr
    exact_mod_cast hhigh

theorem lt_of_pointPosition_lt (hlt : d.coefficient = 0 ∨ d.pointPosition < -60) :
    d.magnitude < Binary.unit 0 / 2 := by
  have hunit : (10 : ℚ) ^ (-60 : Int) < Binary.unit 0 / 2 := by norm_num [Binary.unit]
  by_cases hzero : d.coefficient = 0
  · rw [magnitude, hzero, Nat.cast_zero, zero_mul]
    exact half_pos (Binary.unit_pos 0)
  · calc d.magnitude < 10 ^ d.pointPosition := (magnitude_bounds hzero).2
      _ ≤ 10 ^ (-60 : Int) :=
        zpow_le_zpow_right₀ (by norm_num) (hlt.resolve_left hzero).le
      _ < Binary.unit 0 / 2 := hunit

theorem overflow_le_of_lt_pointPosition (hne : d.coefficient ≠ 0) (hlt : 60 < d.pointPosition) :
    overflow ≤ d.magnitude :=
  calc overflow ≤ 10 ^ (60 : Int) := by norm_num [overflow]
    _ ≤ 10 ^ (d.pointPosition - 1) := zpow_le_zpow_right₀ (by norm_num) (by omega)
    _ ≤ d.magnitude := (magnitude_bounds hne).1

/-- Either the bits say the nearest number, or the number is too large and they say infinity. -/
theorem magnitudeBits_cases (d : Decimal) :
    d.magnitudeBits < infiniteBits ∧ d.magnitude < overflow ∧
        Binary.IsNearest d.magnitude d.magnitudeBits ∨
      d.magnitudeBits = infiniteBits ∧ overflow ≤ d.magnitude := by
  unfold magnitudeBits
  split
  next hsmall =>
    have hlt := lt_of_pointPosition_lt hsmall
    refine .inl ⟨by decide, hlt.trans ?_, Binary.isNearest_zero d.magnitude_nonneg hlt⟩
    norm_num [Binary.unit, overflow]
  next hsmall =>
    rw [not_or] at hsmall
    split
    next hlarge => exact .inr ⟨rfl, overflow_le_of_lt_pointPosition hsmall.1 hlarge⟩
    next =>
      have hpos : 0 < d.magnitude := by
        have hcoefficient := Nat.pos_of_ne_zero hsmall.1
        unfold magnitude
        positivity
      obtain ⟨mantissa, place, hnears, hbits⟩ := Binary.exists_nears hpos
      rw [hbits]
      by_cases hlt : place * hiddenBit + mantissa < infiniteBits
      · rw [Nat.min_eq_right hlt.le]
        exact .inl ⟨hlt, hnears.lt_overflow hlt, hnears.isNearest hlt⟩
      · rw [Nat.min_eq_left (not_lt.mp hlt)]
        exact .inr ⟨rfl, hnears.overflow_le (not_lt.mp hlt)⟩

end Magnitudes

section Floats

variable {d : Decimal} {x y : Float32}

theorem RoundsTo.isNearest (hrounds : d.RoundsTo x) :
    Binary.IsNearest d.magnitude (x.toBits.toNat % signBit) := by
  have hlt := (isFinite_iff x).mp hrounds.isFinite
  constructor
  · intro others hothers
    obtain ⟨y, hfinite, hvalue⟩ := Binary.exists_ofFloat32_eq hothers
    rw [← Binary.ofFloat32_eq, ← hvalue]
    exact hrounds.nearest y hfinite
  · intro others hothers hne htie
    obtain ⟨y, hfinite, hvalue⟩ := Binary.exists_ofFloat32_eq hothers
    rw [← Binary.ofFloat32_eq, ← hvalue] at htie
    rw [← Binary.mantissa_ofFloat32_mod_two]
    refine hrounds.even y hfinite (fun heq => hne ?_) htie
    rw [hvalue, Binary.ofFloat32_eq] at heq
    exact Binary.value_inj (hothers.trans (by decide)) (hlt.trans (by decide)) heq

theorem roundsTo_of_isNearest (hfinite : x.isFinite)
    (hsign : signBit ≤ x.toBits.toNat ↔ d.negative) (hoverflow : d.magnitude < overflow)
    (hnearest : Binary.IsNearest d.magnitude (x.toBits.toNat % signBit)) : d.RoundsTo x where
  isFinite := hfinite
  negative := hsign
  lt_overflow := hoverflow
  nearest := by
    intro y hy
    rw [Binary.ofFloat32_eq x, Binary.ofFloat32_eq y]
    exact hnearest.nearest _ ((isFinite_iff y).mp hy)
  even := by
    intro y hy hne htie
    rw [Binary.ofFloat32_eq x, Binary.ofFloat32_eq y] at hne htie
    rw [Binary.mantissa_ofFloat32_mod_two]
    refine hnearest.even _ ((isFinite_iff y).mp hy) (fun heq => hne ?_) htie
    rw [heq]

theorem RoundsTo.unique (hx : d.RoundsTo x) (hy : d.RoundsTo y) : x = y := by
  have hmagnitude := hx.isNearest.unique hy.isNearest ((isFinite_iff x).mp hx.isFinite)
    ((isFinite_iff y).mp hy.isFinite)
  have hsign := hx.negative.trans hy.negative.symm
  have hxlt : x.toBits.toNat < 2 ^ 32 := x.toBits.toNat_lt
  have hylt : y.toBits.toNat < 2 ^ 32 := y.toBits.toNat_lt
  apply Float32.toBits_inj.mp
  apply UInt32.toNat_inj.mp
  simp only [signBit] at hmagnitude hsign
  omega

theorem not_isFinite_toFloat32 (hinfinite : d.magnitudeBits = infiniteBits) :
    ¬d.toFloat32.isFinite := by
  rw [toFloat32, hinfinite]
  cases d.negative <;> decide

theorem roundsTo_toFloat32 (hlt : d.magnitudeBits < infiniteBits)
    (hoverflow : d.magnitude < overflow)
    (hnearest : Binary.IsNearest d.magnitude d.magnitudeBits) : d.RoundsTo d.toFloat32 := by
  refine roundsTo_of_isNearest (isFinite_signedFloat32 _ hlt)
    (signBit_le_toBits_signedFloat32_iff _ hlt) hoverflow ?_
  rw [toFloat32, toBits_signedFloat32_mod_signBit _ hlt]
  exact hnearest

/-- A decimal number rounds to exactly the number that is computed for it, if that is finite. -/
theorem roundsTo_iff : d.RoundsTo x ↔ d.toFloat32 = x ∧ x.isFinite := by
  rcases magnitudeBits_cases d with ⟨hlt, hoverflow, hnearest⟩ | ⟨hinfinite, hoverflow⟩
  · have hrounds := roundsTo_toFloat32 hlt hoverflow hnearest
    constructor
    · exact fun hx => ⟨hrounds.unique hx, hx.isFinite⟩
    · rintro ⟨rfl, -⟩
      exact hrounds
  · constructor
    · exact fun hx => absurd hx.lt_overflow (not_lt.mpr hoverflow)
    · rintro ⟨rfl, hfinite⟩
      exact absurd hfinite (not_isFinite_toFloat32 hinfinite)

/-- A decimal number rounds to a finite one unless it overflows. -/
theorem exists_roundsTo_iff (d : Decimal) : (∃ x, d.RoundsTo x) ↔ d.magnitude < overflow := by
  refine ⟨fun ⟨x, hx⟩ => hx.lt_overflow, fun hlt => ?_⟩
  rcases magnitudeBits_cases d with ⟨hbits, hoverflow, hnearest⟩ | ⟨-, hoverflow⟩
  · exact ⟨d.toFloat32, roundsTo_toFloat32 hbits hoverflow hnearest⟩
  · exact absurd hlt (not_lt.mpr hoverflow)

end Floats

end Decimal

end ThemeSheet

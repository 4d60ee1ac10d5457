import ThemeSheet.Number.Rounding
import Mathlib

/-!
# Numbers of single precision

The bits of a number are a sign, a field for the exponent and a fraction.  Bits of a finite number
are kept when it is unpacked and packed again, as the library proves for its own model.  Without
the sign, greater bits say a greater number, and the next number is one unit of its place further.
-/

namespace ThemeSheet

open Float.Model (Format UnpackedFloat)
open Float.Model.UnpackedFloat

/-! ## Packed and unpacked numbers -/

section Fields

variable (bits : BitVec (Format.numBits .binary32))

theorem toNat_unpackExponent :
    (unpackExponent bits).toNat = bits.toNat / hiddenBit % 0x100 := by
  simp [unpackExponent, BitVec.extractLsb_toNat, Nat.shiftRight_eq_div_pow, hiddenBit]

theorem toNat_unpackMantissa : (unpackMantissa bits).toNat = bits.toNat % hiddenBit := by
  simp [unpackMantissa, BitVec.extractLsb_toNat, hiddenBit]

theorem eq_allOnes_iff :
    unpackExponent bits = -1#_ ↔ bits.toNat / hiddenBit % 0x100 = 0xFF := by
  rw [← toNat_unpackExponent, ← BitVec.toNat_inj]
  rfl

theorem isFinite_unpack :
    (unpack .binary32 bits).isFinite ↔ bits.toNat / hiddenBit % 0x100 ≠ 0xFF := by
  rw [Ne, ← eq_allOnes_iff]
  unfold unpack
  simp only
  split
  next hinfinite => split <;> simp only [UnpackedFloat.isFinite, hinfinite] <;> decide
  next hfinite =>
    refine iff_of_true ?_ hfinite
    split
    next => split <;> rfl
    next => rfl

theorem pack_unpack_of_finite (hfinite : bits.toNat / hiddenBit % 0x100 ≠ 0xFF) :
    pack .binary32 (unpack .binary32 bits) = bits := by
  have hnumber : ¬isNaNBits bits := by
    rw [isNaNBits, decide_eq_true_eq, eq_allOnes_iff]
    exact fun hnan => hfinite hnan.1
  rw [pack_unpack, if_neg hnumber]

theorem toNat_append_unpackMantissa :
    (1#1 ++ unpackMantissa bits).toNat = hiddenBit + (unpackMantissa bits).toNat := by
  rw [BitVec.toNat_append, ← Nat.shiftLeft_add_eq_or_of_lt (unpackMantissa bits).isLt]
  rfl

/-- Bits are read as the mantissa and the exponent that they are unpacked to. -/
theorem ofBits_of_unpack {sign : UnpackedFloat.Sign} {mantissa : Nat} {exponent : Int}
    {hpos : 0 < mantissa}
    (hunpack : unpack .binary32 bits = .finite sign mantissa exponent hpos) :
    Binary.ofBits bits.toNat = ⟨mantissa, exponent⟩ := by
  unfold unpack at hunpack
  simp only at hunpack
  rw [Binary.ofBits, ← toNat_unpackExponent, ← toNat_unpackMantissa]
  split at hunpack
  next => split at hunpack <;> cases hunpack
  next =>
    split at hunpack
    next hexponent =>
      split at hunpack
      next => cases hunpack
      next =>
        cases hunpack
        rw [hexponent]
        rfl
    next hexponent =>
      cases hunpack
      have hfield : (unpackExponent bits).toNat ≠ 0 := by
        simpa [← BitVec.toNat_inj] using hexponent
      rw [toNat_append_unpackMantissa, if_neg hfield]
      rfl

end Fields

theorem toBits_ofBits {bits : UInt32} (hfinite : bits.toNat / hiddenBit % 0x100 ≠ 0xFF) :
    (Float32.ofBits bits).toBits = bits :=
  congrArg UInt32.ofBitVec (pack_unpack_of_finite bits.toBitVec hfinite)

/-- A number is finite if its bits without the sign are less than those of infinity. -/
theorem isFinite_iff (x : Float32) :
    x.isFinite ↔ x.toBits.toNat % signBit < infiniteBits := by
  have hfinite : x.isFinite ↔ x.toBits.toNat / hiddenBit % 0x100 ≠ 0xFF :=
    isFinite_unpack x.toBits.toBitVec
  rw [hfinite]
  simp only [signBit, infiniteBits, hiddenBit]
  omega

theorem toBits_ofBits_ofNat {bits : Nat} (hlt : bits < 2 * signBit)
    (hfinite : bits % signBit < infiniteBits) :
    (Float32.ofBits (UInt32.ofNat bits)).toBits.toNat = bits := by
  have hbits : (UInt32.ofNat bits).toNat = bits := UInt32.toNat_ofNat_of_lt' hlt
  rw [toBits_ofBits, hbits]
  rw [hbits]
  simp only [signBit, infiniteBits, hiddenBit] at *
  omega

theorem infiniteBits_lt_signBit : infiniteBits < signBit := by decide

section Signs

variable {bits : Nat} (negative : Bool)

theorem signed_mod_signBit (hlt : bits < signBit) :
    (if negative then signBit + bits else bits) % signBit = bits := by
  have hmod : bits % signBit = bits := Nat.mod_eq_of_lt hlt
  cases negative with
  | false => exact hmod
  | true => rw [if_pos rfl, Nat.add_mod_left, hmod]

theorem toBits_signedFloat32 (hlt : bits < infiniteBits) :
    (signedFloat32 negative bits).toBits.toNat = if negative then signBit + bits else bits := by
  have hsign := hlt.trans infiniteBits_lt_signBit
  apply toBits_ofBits_ofNat
  · split <;> omega
  · rwa [signed_mod_signBit negative hsign]

theorem toBits_signedFloat32_mod_signBit (hlt : bits < infiniteBits) :
    (signedFloat32 negative bits).toBits.toNat % signBit = bits := by
  rw [toBits_signedFloat32 negative hlt,
    signed_mod_signBit negative (hlt.trans infiniteBits_lt_signBit)]

theorem signBit_le_toBits_signedFloat32_iff (hlt : bits < infiniteBits) :
    signBit ≤ (signedFloat32 negative bits).toBits.toNat ↔ negative := by
  have hsign := hlt.trans infiniteBits_lt_signBit
  rw [toBits_signedFloat32 negative hlt]
  cases negative with
  | false => exact iff_of_false (not_le.mpr hsign) Bool.false_ne_true
  | true => exact iff_of_true (Nat.le_add_right _ _) rfl

theorem isFinite_signedFloat32 (hlt : bits < infiniteBits) :
    (signedFloat32 negative bits).isFinite := by
  rw [isFinite_iff, toBits_signedFloat32_mod_signBit negative hlt]
  exact hlt

end Signs

/-! ## What bits say -/

namespace Binary

def value (b : Binary) : ℚ := b.mantissa * (2 : ℚ) ^ b.exponent

/-- The distance of the numbers whose last bit is at a place. -/
def unit (place : Nat) : ℚ := 2 ^ ((place : Int) - 149)

theorem unit_pos (place : Nat) : 0 < unit place := by
  unfold unit
  positivity

theorem unit_succ (place : Nat) : unit (place + 1) = 2 * unit place := by
  have hexponent : ((place + 1 : Nat) : Int) - 149 = place - 149 + 1 := by omega
  rw [unit, unit, hexponent, zpow_add_one₀ two_ne_zero, mul_comm]

theorem unit_mono {place other : Nat} (hle : place ≤ other) : unit place ≤ unit other := by
  unfold unit
  gcongr
  norm_num

/-- Whether a mantissa can stand at a place, be it one that carries. -/
structure Fits (mantissa place : Nat) : Prop where
  le : mantissa ≤ 2 * hiddenBit
  normal : place = 0 ∨ hiddenBit ≤ mantissa

section Bits

variable {mantissa place bits a b : Nat}

theorem ofBits_of_field_eq_zero (hfield : bits / hiddenBit % 0x100 = 0) :
    ofBits bits = ⟨bits % hiddenBit, -149⟩ :=
  if_pos hfield

theorem ofBits_of_field_ne_zero (hfield : bits / hiddenBit % 0x100 ≠ 0) :
    ofBits bits = ⟨hiddenBit + bits % hiddenBit, (bits / hiddenBit % 0x100 : Nat) - 150⟩ :=
  if_neg hfield

/-- The sign is not a part of what bits say. -/
theorem ofBits_mod_signBit (bits : Nat) : ofBits (bits % signBit) = ofBits bits := by
  have hfield : bits % signBit / hiddenBit % 0x100 = bits / hiddenBit % 0x100 := by
    simp only [signBit, hiddenBit]
    omega
  have hfraction : bits % signBit % hiddenBit = bits % hiddenBit := by
    simp only [signBit, hiddenBit]
    omega
  rw [ofBits, ofBits, hfield, hfraction]

theorem ofBits_of_lt (hfits : Fits mantissa place) (hlt : mantissa < 2 * hiddenBit)
    (hbits : place * hiddenBit + mantissa < signBit) :
    ofBits (place * hiddenBit + mantissa) = ⟨mantissa, (place : Int) - 149⟩ := by
  have hnormal := hfits.normal
  by_cases hfield : (place * hiddenBit + mantissa) / hiddenBit % 0x100 = 0
  · rw [ofBits_of_field_eq_zero hfield, Binary.mk.injEq]
    simp only [hiddenBit, signBit] at *
    omega
  · rw [ofBits_of_field_ne_zero hfield, Binary.mk.injEq]
    simp only [hiddenBit, signBit] at *
    omega

theorem ofBits_carry (hbits : place * hiddenBit + 2 * hiddenBit < signBit) :
    ofBits (place * hiddenBit + 2 * hiddenBit) = ⟨hiddenBit, (place : Int) - 148⟩ := by
  simp only [signBit] at hbits
  rw [ofBits_of_field_ne_zero (by simp only [hiddenBit] at *; omega), Binary.mk.injEq]
  simp only [hiddenBit] at *
  omega

theorem value_ofBits (hfits : Fits mantissa place)
    (hbits : place * hiddenBit + mantissa < signBit) :
    (ofBits (place * hiddenBit + mantissa)).value = mantissa * unit place := by
  rcases hfits.le.lt_or_eq with hlt | rfl
  · rw [ofBits_of_lt hfits hlt hbits, value, unit]
  · have hexponent : (place : Int) - 148 = (place + 1 : Nat) - 149 := by omega
    have hcarry : (ofBits (place * hiddenBit + 2 * hiddenBit)).value =
        hiddenBit * unit (place + 1) := by
      rw [ofBits_carry hbits, value, unit, hexponent]
    rw [hcarry, unit_succ]
    push_cast
    ring

theorem exists_fits (hbits : bits < signBit) :
    ∃ mantissa place, Fits mantissa place ∧ mantissa < 2 * hiddenBit ∧
      bits = place * hiddenBit + mantissa := by
  refine ⟨bits - (bits / hiddenBit - 1) * hiddenBit, bits / hiddenBit - 1, ⟨?_, ?_⟩, ?_, ?_⟩
  all_goals
    rw [signBit] at hbits
    simp only [hiddenBit]
    omega

theorem mantissa_mod_two (hbits : bits < signBit) :
    (ofBits bits).mantissa % 2 = bits % 2 := by
  obtain ⟨mantissa, place, hfits, hlt, rfl⟩ := exists_fits hbits
  rw [ofBits_of_lt hfits hlt hbits]
  simp only [hiddenBit]
  omega

theorem value_succ (hfits : Fits mantissa place) (hlt : mantissa < 2 * hiddenBit)
    (hbits : place * hiddenBit + (mantissa + 1) < signBit) :
    (ofBits (place * hiddenBit + (mantissa + 1))).value =
      (ofBits (place * hiddenBit + mantissa)).value + unit place := by
  have hnext : Fits (mantissa + 1) place :=
    ⟨Nat.succ_le_of_lt hlt, hfits.normal.imp_right Nat.le_succ_of_le⟩
  rw [value_ofBits hnext hbits, value_ofBits hfits (by omega)]
  push_cast
  ring

theorem value_lt_value_succ (hbits : bits + 1 < signBit) :
    (ofBits bits).value < (ofBits (bits + 1)).value := by
  obtain ⟨mantissa, place, hfits, hlt, rfl⟩ := exists_fits (Nat.lt_of_succ_lt hbits)
  rw [Nat.add_assoc] at hbits ⊢
  rw [value_succ hfits hlt hbits]
  exact lt_add_of_pos_right _ (unit_pos place)

theorem value_lt_value (hlt : a < b) (hbits : b < signBit) :
    (ofBits a).value < (ofBits b).value := by
  induction b, hlt using Nat.le_induction with
  | base => exact value_lt_value_succ hbits
  | succ b hab ih => exact (ih (Nat.lt_of_succ_lt hbits)).trans (value_lt_value_succ hbits)

theorem value_le_value (hle : a ≤ b) (hbits : b < signBit) :
    (ofBits a).value ≤ (ofBits b).value := by
  rcases hle.lt_or_eq with hlt | rfl
  · exact (value_lt_value hlt hbits).le
  · exact le_rfl

theorem value_inj (ha : a < signBit) (hb : b < signBit)
    (hvalue : (ofBits a).value = (ofBits b).value) : a = b := by
  rcases Nat.lt_trichotomy a b with hlt | heq | hgt
  · exact absurd hvalue (value_lt_value hlt hb).ne
  · exact heq
  · exact absurd hvalue (value_lt_value hgt ha).ne'

/-- What lies above a number is at least one unit away. -/
theorem value_add_unit_le (hfits : Fits mantissa place)
    (hlt : place * hiddenBit + mantissa < bits) (hbits : bits < signBit) :
    (ofBits (place * hiddenBit + mantissa)).value + unit place ≤ (ofBits bits).value := by
  rcases hfits.le.lt_or_eq with hmantissa | rfl
  · rw [← value_succ hfits hmantissa (by omega)]
    exact value_le_value hlt hbits
  · -- The carried mantissa is the least one of the next place, and has a larger unit above it.
    have hcarry : place * hiddenBit + 2 * hiddenBit = (place + 1) * hiddenBit + hiddenBit := by
      ring
    have hnormal : Fits hiddenBit (place + 1) := ⟨by omega, .inr le_rfl⟩
    have hunit : unit place ≤ unit (place + 1) := by
      rw [unit_succ]
      linarith [unit_pos place]
    rw [hcarry] at hlt ⊢
    calc (ofBits ((place + 1) * hiddenBit + hiddenBit)).value + unit place
        ≤ (ofBits ((place + 1) * hiddenBit + hiddenBit)).value + unit (place + 1) := by gcongr
      _ = (ofBits ((place + 1) * hiddenBit + (hiddenBit + 1))).value :=
        (value_succ hnormal (by decide) (by omega)).symm
      _ ≤ (ofBits bits).value := value_le_value hlt hbits

/-- What lies below a number is, unless its mantissa is the least one. -/
theorem value_add_unit_le_of_lt (hfits : Fits mantissa place)
    (hgap : place = 0 ∨ hiddenBit < mantissa) (hlt : bits < place * hiddenBit + mantissa)
    (hbits : place * hiddenBit + mantissa < signBit) :
    (ofBits bits).value + unit place ≤ (ofBits (place * hiddenBit + mantissa)).value := by
  obtain ⟨below, rfl⟩ : ∃ below, mantissa = below + 1 := by
    refine Nat.exists_eq_add_one_of_ne_zero ?_
    rintro rfl
    rcases hgap with rfl | hgap <;> omega
  have hbelow : Fits below place := ⟨by have := hfits.le; omega, by omega⟩
  rw [value_succ hbelow (Nat.lt_of_succ_le hfits.le) hbits]
  have hle : bits ≤ place * hiddenBit + below := by omega
  gcongr
  exact value_le_value hle (by omega)

end Bits

section Floats

theorem ofFloat32_eq (x : Float32) : ofFloat32 x = ofBits (x.toBits.toNat % signBit) :=
  (ofBits_mod_signBit _).symm

theorem mantissa_ofFloat32_mod_two (x : Float32) :
    (ofFloat32 x).mantissa % 2 = x.toBits.toNat % signBit % 2 := by
  rw [ofFloat32_eq]
  exact mantissa_mod_two (Nat.mod_lt _ (by decide))

theorem exists_ofFloat32_eq {bits : Nat} (hlt : bits < infiniteBits) :
    ∃ x : Float32, x.isFinite ∧ ofFloat32 x = ofBits bits := by
  refine ⟨signedFloat32 false bits, isFinite_signedFloat32 false hlt, ?_⟩
  rw [ofFloat32_eq, toBits_signedFloat32_mod_signBit false hlt]

end Floats

end Binary

end ThemeSheet

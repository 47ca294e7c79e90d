import GameScript.Proofs.Decimal.Notation
import Mathlib

/-! # Decimal digits read as numbers that are not negative

A number that is read from digits has no sign, and it is never undefined. So it is a magnitude
unless it is too large for one. -/

namespace GameScript.Decimal

open Float.Model (Format UnpackedFloat)
open Float.Model.UnpackedFloat (Sign Accuracy packComponents unpackSign unpackExponent)

/-! ## Signs -/

/-- A number with a positive sign, which may be infinite. -/
def Unsigned : UnpackedFloat → Prop
  | .infinity sign | .zero sign | .finite sign _ _ _ => sign = .positive
  | .notANumber => False

theorem unsigned_unpack {exponent : BitVec 11} {mantissa : BitVec 52}
    (h : exponent = -1#11 → mantissa = 0#52) :
    Unsigned (UnpackedFloat.unpack .binary64
      (packComponents .binary64 .positive exponent mantissa)) := by
  unfold UnpackedFloat.unpack
  simp only [UnpackedFloat.unpackMantissa_packComponents,
    UnpackedFloat.unpackExponent_packComponents, UnpackedFloat.unpackSign_packComponents]
  split
  · rename_i hmost
    rw [if_pos (h hmost)]
    rfl
  · split
    · split <;> rfl
    · rfl

/-- Packing keeps the sign, and a finite number becomes infinite at most. -/
theorem unsigned_pack {x : UnpackedFloat} (h : Unsigned x) :
    Unsigned (UnpackedFloat.unpack .binary64 (UnpackedFloat.pack .binary64 x)) := by
  cases x with
  | notANumber => cases h
  | infinity sign =>
    cases h
    exact unsigned_unpack fun _ => rfl
  | zero sign =>
    cases h
    exact unsigned_unpack fun _ => rfl
  | finite sign mantissa exponent hpos =>
    cases h
    unfold UnpackedFloat.pack
    dsimp only
    split
    · exact unsigned_unpack fun _ => rfl
    · rename_i hfits
      split
      · refine unsigned_unpack fun hmost => absurd (congrArg BitVec.toNat hmost) ?_
        rw [BitVec.toNat_ofNat]
        have : (-1#11).toNat = 2047 := rfl
        omega
      · exact unsigned_unpack fun hmost => absurd hmost (by decide)

theorem unsigned_roundWithAccuracy (mantissa : Nat) (exponent : Int) (accuracy : Accuracy) :
    Unsigned (UnpackedFloat.roundWithAccuracy .binary64 .positive mantissa exponent accuracy) := by
  unfold UnpackedFloat.roundWithAccuracy
  dsimp only
  split <;> rfl

theorem unsigned_round (mantissa : Nat) (exponent : Int) :
    Unsigned (UnpackedFloat.round .binary64 .positive mantissa exponent) :=
  unsigned_roundWithAccuracy _ _ _

theorem unsigned_ofNat (n : Nat) : Unsigned (UnpackedFloat.ofNat .binary64 n) := by
  unfold UnpackedFloat.ofNat UnpackedFloat.ofInt UnpackedFloat.normalize
  split
  · rename_i h
    have := Int.compare_eq_lt.mp h
    omega
  · rfl
  · exact unsigned_round _ _

/-- A finite number above zero. -/
def isPositive : UnpackedFloat → Bool
  | .finite .positive _ _ _ => true
  | _ => false

section Operations

variable {x y : UnpackedFloat} (hx : Unsigned x) (hy : isPositive y = true)

include hx hy

theorem unsigned_mul : Unsigned (UnpackedFloat.mul .binary64 x y) := by
  obtain _ | _ | _ | ⟨⟨⟩ | ⟨⟩, m, e, hpos⟩ := y <;> try cases hy
  cases x with
  | notANumber => cases hx
  | infinity sign => cases hx; rfl
  | zero sign => cases hx; rfl
  | finite sign m e h =>
    cases hx
    exact unsigned_roundWithAccuracy _ _ _

theorem unsigned_div : Unsigned (UnpackedFloat.div .binary64 x y) := by
  obtain _ | _ | _ | ⟨⟨⟩ | ⟨⟩, m, e, hpos⟩ := y <;> try cases hy
  cases x with
  | notANumber => cases hx
  | infinity sign => cases hx; rfl
  | zero sign => cases hx; rfl
  | finite sign m e h =>
    cases hx
    exact unsigned_roundWithAccuracy _ _ _

end Operations

theorem unsigned_ofScientific (m : Nat) (e : Int) :
    Unsigned (UnpackedFloat.ofScientific .binary64 m e) := by
  unfold UnpackedFloat.ofScientific
  split
  · rfl
  · split
    · rfl
    · split
      · rfl
      · split
        · exact unsigned_mul (by rfl) rfl
        · exact unsigned_div (by rfl) rfl

/-! ## Numbers of a source -/

theorem powersOfTen_positive : ∀ x ∈ Float.exactlyRepresentablePowersOfTen.toList,
    isPositive x.toModel.unpack = true := by decide

theorem unsigned_float_ofScientific (m : Nat) (s : Bool) (e : Nat) :
    Unsigned (Float.ofScientific m s e).toModel.unpack := by
  unfold Float.ofScientific
  split
  · rename_i h
    have hm : Unsigned (m.toUInt64.toFloat).toModel.unpack := unsigned_pack (unsigned_ofNat _)
    have he : e < Float.exactlyRepresentablePowersOfTen.size := Nat.lt_succ_of_le h.2
    have hten := powersOfTen_positive _ (Array.getElem_mem_toList he)
    dsimp only
    split
    · exact unsigned_pack (unsigned_div hm hten)
    · exact unsigned_pack (unsigned_mul hm hten)
  · exact unsigned_pack (unsigned_ofScientific _ _)

theorem unsigned_nearest (digits : Nat) (exponent : Int) :
    Unsigned (nearest digits exponent).toModel.unpack := by
  unfold nearest
  dsimp only
  split
  · exact unsigned_float_ofScientific 0 false 0
  · split
    · rfl
    · exact unsigned_float_ofScientific _ _ _

theorem toNat_unpackSign (bits : BitVec 64) :
    (@unpackSign .binary64 bits).toNat = bits.toNat / signBit % 2 := by
  simp [unpackSign, Nat.shiftRight_eq_div_pow, signBit]

theorem toNat_unpackExponent (bits : BitVec 64) :
    (@unpackExponent .binary64 bits).toNat = bits.toNat / leadingOne % 2048 := by
  simp [unpackExponent, Nat.shiftRight_eq_div_pow, leadingOne]

/-- How the bits of a finite number show that it has no sign. -/
theorem unpack_fields {bits : BitVec 64} (h : Unsigned (UnpackedFloat.unpack .binary64 bits))
    (hinf : (UnpackedFloat.unpack .binary64 bits).isInf = false) :
    bits.toNat < signBit ∧ bits.toNat / leadingOne % 2048 ≠ 2047 := by
  unfold UnpackedFloat.unpack at h hinf
  dsimp only at h hinf
  split at h
  · rename_i hmost
    rw [if_pos hmost] at hinf
    split at h
    · rename_i hzero
      rw [if_pos hzero] at hinf
      cases hinf
    · cases h
  · rename_i hmost
    have hpositive : Sign.ofBitVec (@unpackSign .binary64 bits) = .positive := by
      split at h
      · split at h <;> exact h
      · exact h
    have hsign : @unpackSign .binary64 bits = 0#1 := by
      by_contra hne
      rw [Sign.ofBitVec, if_neg hne] at hpositive
      cases hpositive
    constructor
    · have hbit : _ = 0 := congrArg BitVec.toNat hsign
      have hsize := bits.isLt
      rw [toNat_unpackSign, signBit] at hbit
      rw [signBit]
      omega
    · intro hfield
      refine hmost (BitVec.eq_of_toNat_eq ?_)
      rw [toNat_unpackExponent, hfield]
      rfl

/-- A number without a sign is a magnitude unless it is too large. -/
theorem isMagnitude_of_unsigned {x : Float} (h : Unsigned x.toModel.unpack)
    (hinf : x.isInf = false) : IsMagnitude x := by
  have hfields : x.toBits.toNat < signBit ∧ x.toBits.toNat / leadingOne % 2048 ≠ 2047 :=
    unpack_fields h hinf
  have hnegative : decide (signBit ≤ x.toBits.toNat) = false :=
    decide_eq_false (Nat.not_le_of_lt hfields.1)
  unfold IsMagnitude parts
  dsimp only
  rw [hnegative, if_neg hfields.2]
  split
  · exact ⟨_, _, rfl⟩
  · exact ⟨_, _, rfl⟩

end GameScript.Decimal

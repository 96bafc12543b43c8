import Mathlib
import Minibasic.Number

/-!
The word of a float: one bit of sign, eleven of exponent and fifty-two of mantissa.
-/

namespace Minibasic

open Float.Model.UnpackedFloat

theorem unpackMantissa_toNat (w : UInt64) :
    (@unpackMantissa .binary64 w.toBitVec).toNat = w.toNat % 2 ^ 52 := by
  rw [unpackMantissa, BitVec.toNat_cast, BitVec.extractLsb_toNat, Nat.shiftRight_zero]
  rfl

theorem unpackExponent_toNat (w : UInt64) :
    (@unpackExponent .binary64 w.toBitVec).toNat = w.toNat / 2 ^ 52 % 2048 := by
  rw [unpackExponent, BitVec.toNat_cast, BitVec.extractLsb_toNat, Nat.shiftRight_eq_div_pow]
  rfl

theorem unpackSign_toNat (w : UInt64) :
    (@unpackSign .binary64 w.toBitVec).toNat = w.toNat / 2 ^ 63 := by
  have hw := w.toNat_lt
  rw [unpackSign, BitVec.toNat_cast, BitVec.extractLsb_toNat, Nat.shiftRight_eq_div_pow]
  change w.toNat / 2 ^ 63 % 2 = _
  omega

theorem exponent_eq_ones_iff (e : BitVec 11) : e = -1#11 ↔ e.toNat = 2047 :=
  BitVec.toNat_inj.symm

theorem exponent_eq_zero_iff (e : BitVec 11) : e = 0#11 ↔ e.toNat = 0 := BitVec.toNat_inj.symm

/-- The leading bit of a mantissa is not in the word. -/
theorem toNat_one_append (v : BitVec 52) : (1#1 ++ v).toNat = 2 ^ 52 + v.toNat := by
  rw [BitVec.toNat_append, ← Nat.shiftLeft_add_eq_or_of_lt v.isLt]
  rfl

end Minibasic

import Mathlib
import Minibasic.Proofs.Number.Integrality
import Minibasic.Proofs.Number.Ranks
import Minibasic.Proofs.Token.Language

/-!
Floats that are read from digits. They have no sign, and they are defined; they may be infinite.
-/

namespace Minibasic

open Float.Model (UnpackedFloat Format)
open Float.Model.UnpackedFloat

/-- Zero, infinite or finite, and not below zero. -/
def Unsigned : UnpackedFloat → Prop
  | .zero s | .infinity s | .finite s _ _ _ => s = .positive
  | .notANumber => False

/-- Finite, and neither zero nor below it. -/
def isFinitePositive : UnpackedFloat → Bool
  | .finite .positive _ _ _ => true
  | _ => false

theorem exists_of_isFinitePositive {u : UnpackedFloat} (h : isFinitePositive u) :
    ∃ m e hm, u = .finite .positive m e hm := by
  unfold isFinitePositive at h
  split at h
  · exact ⟨_, _, _, rfl⟩
  · cases h

namespace Unsigned

variable {u v : UnpackedFloat}

theorem roundWithAccuracy (m : Nat) (e : Int) (a : Accuracy) :
    Unsigned (roundWithAccuracy .binary64 .positive m e a) := by
  simp only [Float.Model.UnpackedFloat.roundWithAccuracy]
  split <;> rfl

theorem mul (hu : Unsigned u) (hv : isFinitePositive v) :
    Unsigned (UnpackedFloat.mul .binary64 u v) := by
  obtain ⟨m, e, hm, rfl⟩ := exists_of_isFinitePositive hv
  cases u with
  | notANumber => exact hu.elim
  | infinity s | zero s =>
    obtain rfl : s = .positive := hu
    rfl
  | finite s =>
    obtain rfl : s = .positive := hu
    exact roundWithAccuracy _ _ _

theorem div (hu : Unsigned u) (hv : isFinitePositive v) :
    Unsigned (UnpackedFloat.div .binary64 u v) := by
  obtain ⟨m, e, hm, rfl⟩ := exists_of_isFinitePositive hv
  cases u with
  | notANumber => exact hu.elim
  | infinity s | zero s =>
    obtain rfl : s = .positive := hu
    rfl
  | finite s =>
    obtain rfl : s = .positive := hu
    exact roundWithAccuracy _ _ _

theorem ofScientific (m : Nat) (e : Int) :
    Unsigned (UnpackedFloat.ofScientific .binary64 m e) := by
  unfold UnpackedFloat.ofScientific
  split
  · rfl
  · split
    · rfl
    · split
      · rfl
      · split
        · exact mul (v := .finite .positive _ _ _) rfl rfl
        · exact div (v := .finite .positive _ _ _) rfl rfl

theorem ofUInt64 (w : UInt64) : Unsigned (UnpackedFloat.ofUInt64 .binary64 w) := by
  simp only [UnpackedFloat.ofUInt64, UnpackedFloat.ofNat, UnpackedFloat.ofInt,
    UnpackedFloat.normalize]
  split
  next h => exact absurd (Int.compare_eq_lt.mp h) (Int.not_lt.mpr (Int.natCast_nonneg _))
  next => rfl
  next => exact roundWithAccuracy _ _ _

/-- An exponent of ones and a mantissa that is not zero do not come together. -/
theorem unpack_packComponents {e : BitVec 11} {m : BitVec 52} (h : e = -1#11 → m = 0#52) :
    Unsigned (UnpackedFloat.unpack .binary64 (packComponents .binary64 .positive e m)) := by
  simp only [UnpackedFloat.unpack, unpackMantissa_packComponents, unpackExponent_packComponents,
    unpackSign_packComponents, Sign.ofBitVec_toBitVec]
  split
  next he =>
    rw [if_pos (h he)]
    rfl
  next =>
    split
    · split <;> rfl
    · rfl

/-- What is packed into a word is taken out of it again without a sign. -/
theorem unpack_pack (hu : Unsigned u) : Unsigned (Float.Model.pack u).unpack := by
  change Unsigned (UnpackedFloat.unpack .binary64 (UnpackedFloat.pack .binary64 u))
  cases u with
  | notANumber => exact hu.elim
  | zero s =>
    obtain rfl : s = .positive := hu
    exact unpack_packComponents (e := 0) (m := 0) fun h => absurd h (by decide)
  | infinity s =>
    obtain rfl : s = .positive := hu
    exact unpack_packComponents (e := -1#11) (m := 0) fun _ => rfl
  | finite s m e hm =>
    obtain rfl : s = .positive := hu
    simp only [UnpackedFloat.pack]
    split
    next => exact unpack_packComponents (e := -1#11) (m := 0) fun _ => rfl
    next hfinite =>
      split
      next =>
        refine unpack_packComponents fun hones => absurd ?_ hfinite
        rw [exponent_eq_ones_iff, BitVec.toNat_ofNat] at hones
        omega
      next => exact unpack_packComponents (e := 0#11) fun h => absurd h (by decide)

/-- The powers of ten that are multiplied and divided by. -/
theorem finite_powers : ∀ e, (h : e < Float.exactlyRepresentablePowersOfTen.size) →
    isFinitePositive (Float.exactlyRepresentablePowersOfTen[e]).toModel.unpack := by
  decide +kernel

/-- The text of digits with a point or without one gives a float without a sign. -/
theorem ofDigits (m : Nat) (point : Bool) (e : Nat) :
    Unsigned (Float.ofScientific m point e).toModel.unpack := by
  unfold Float.ofScientific
  split
  next h =>
    have hpower := finite_powers e (Nat.lt_succ_of_le h.2)
    dsimp only
    split
    · exact unpack_pack (div (unpack_pack (ofUInt64 _)) hpower)
    · exact unpack_pack (mul (unpack_pack (ofUInt64 _)) hpower)
  next => exact unpack_pack (ofScientific _ _)

end Unsigned

/-- The sign of a word without a sign. -/
theorem sign_of_unsigned {w : UInt64} (h : Unsigned (UnpackedFloat.unpack .binary64 w.toBitVec)) :
    Sign.ofBitVec (@unpackSign .binary64 w.toBitVec) = .positive := by
  simp only [UnpackedFloat.unpack] at h
  split at h
  · split at h
    · exact h
    · exact h.elim
  · split at h
    · split at h <;> exact h
    · exact h

/-- What a float without a sign stands for: infinity, or a finite number. -/
theorem ofFloat_of_unsigned {x : Float} (h : Unsigned x.toModel.unpack) :
    FloatForm.ofFloat x = .infinite false ∨
      FloatForm.ofFloat x = .finite (.ofBits x.toBits.toNat) ∧
        (Binary.ofBits x.toBits.toNat).negative = false := by
  have hnan : ¬x.isNaN := by
    change ¬x.toModel.unpack.isNaN
    cases hu : x.toModel.unpack with
    | notANumber => exact (hu ▸ h).elim
    | _ => exact Bool.false_ne_true
  rw [FloatForm.ofFloat, if_neg hnan]
  split
  next hinf =>
    have hlt : ¬x < 0 := by
      change x.toModel.unpack.isInf at hinf
      cases hu : x.toModel.unpack with
      | infinity s =>
        rw [hu] at h
        obtain rfl : s = .positive := h
        have hrank : Rank.ofFloat? x = some (toLex (2, toLex (0, 0))) := congrArg _ hu
        rw [Rank.lt_iff hrank rfl]
        decide
      | _ =>
        rw [hu] at hinf
        cases hinf
    rw [decide_eq_false hlt]
    exact .inl rfl
  next =>
    have hsign : (Binary.ofBits x.toBits.toNat).sign * 1 = _ := sign_ofBits x.toModel.toBits 1
    rw [sign_of_unsigned h] at hsign
    refine .inr ⟨rfl, ?_⟩
    cases hn : (Binary.ofBits x.toBits.toNat).negative with
    | false => rfl
    | true =>
      rw [Binary.sign, hn] at hsign
      exact absurd hsign (by decide)

/-- The float that is spelled has no sign. -/
theorem unsigned_of_spells {x : Float} {w : List Char} (h : Scan.Spells (.float x) w) :
    Unsigned x.toModel.unpack := by
  cases h with
  | symbol h => simp [Scan.symbols] at h
  | large => exact Unsigned.ofDigits _ false 0
  | point => exact Unsigned.ofDigits _ true _

end Minibasic

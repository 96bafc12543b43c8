import Mathlib
import Minibasic.Number
import Minibasic.Proofs.Number.Words

/-!
Floats that are integers. A finite float has an exact value, a fraction whose denominator is a power
of two. It counts as an integer if that value is one and in range, unless it is the least in range.
-/

namespace Minibasic

open Float.Model (UnpackedFloat Format)
open Float.Model.UnpackedFloat

namespace Binary

def sign (b : Binary) : Int := if b.negative then -1 else 1

theorem natAbs_sign (b : Binary) : b.sign.natAbs = 1 := by
  unfold sign
  split <;> rfl

def value (b : Binary) : ℚ := b.sign * b.mantissa * 2 ^ b.exponent

variable {b : Binary} {n : Int}

theorem two_zpow (e : Int) : (2 : ℚ) ^ e = 2 ^ e.toNat / 2 ^ (-e).toNat := by
  rw [← zpow_natCast, ← zpow_natCast, ← zpow_sub₀ two_ne_zero]
  congr 1
  omega

/-- The denominator on the other side. -/
theorem value_eq_iff : b.value = n ↔
    b.sign * (b.mantissa * 2 ^ b.exponent.toNat) = n * 2 ^ (-b.exponent).toNat := by
  have hunit : (2 : ℚ) ^ (-b.exponent).toNat ≠ 0 := pow_ne_zero _ two_ne_zero
  rw [value, two_zpow, mul_div_assoc', div_eq_iff hunit, mul_assoc]
  norm_cast

theorem toInt?_eq (b : Binary) : b.toInt? =
    if b.mantissa % 2 ^ (-b.exponent).toNat = 0 then
      some (b.sign * (b.mantissa / 2 ^ (-b.exponent).toNat * 2 ^ b.exponent.toNat : Nat))
    else none := by
  obtain ⟨negative, m, e⟩ := b
  cases negative
  · simp only [sign, Bool.false_eq_true, if_false, Int.one_mul]
    rfl
  · simp only [sign, if_true, Int.neg_one_mul]
    rfl

/-- The unit divides the mantissa if the number is an integer. -/
theorem toInt?_eq_some_iff : b.toInt? = some n ↔ b.value = n := by
  have hpos : (0 : Int) < 2 ^ (-b.exponent).toNat := by positivity
  rw [toInt?_eq, value_eq_iff]
  split
  next h =>
    obtain ⟨q, hq⟩ := Nat.dvd_of_mod_eq_zero h
    rw [Option.some.injEq, hq, Nat.mul_div_cancel_left q (Nat.two_pow_pos _)]
    have hcancel : b.sign * ((2 ^ (-b.exponent).toNat * q : Nat) * 2 ^ b.exponent.toNat) =
        b.sign * (q * 2 ^ b.exponent.toNat : Nat) * 2 ^ (-b.exponent).toNat := by
      push_cast
      ring
    rw [hcancel, mul_left_inj' hpos.ne']
  next h =>
    refine iff_of_false nofun fun hn => h ?_
    -- The unit is one unless the exponent is negative, and then it is all that the exponent gives.
    rcases Int.le_total 0 b.exponent with he | he
    · rw [Int.toNat_of_nonpos (by omega : -b.exponent ≤ 0), pow_zero, Nat.mod_one]
    · rw [Int.toNat_of_nonpos he, pow_zero, mul_one] at hn
      have hdvd := Int.natAbs_dvd_natAbs.mpr (Dvd.intro_left n hn.symm)
      rw [Int.natAbs_mul, natAbs_sign, one_mul, Int.natAbs_natCast, Int.natAbs_pow] at hdvd
      exact Nat.mod_eq_zero_of_dvd hdvd

end Binary

/-- The exact value of a float taken apart, if it is finite. -/
def unpackedValue? : UnpackedFloat → Option ℚ
  | .zero _ => some 0
  | .finite s m e _ => some (s.apply m * 2 ^ e)
  | .infinity _ | .notANumber => none

/-- The exact value of a float, if it is finite. -/
def floatValue? (x : Float) : Option ℚ := unpackedValue? x.toModel.unpack

theorem sign_ofBits (w : UInt64) (m : Int) : (Binary.ofBits w.toNat).sign * m =
    (Sign.ofBitVec (@unpackSign .binary64 w.toBitVec)).apply m := by
  have hw := w.toNat_lt
  have hbit : @unpackSign .binary64 w.toBitVec = BitVec.ofNat 1 (w.toNat / 2 ^ 63) := by
    rw [← unpackSign_toNat, BitVec.ofNat_toNat, BitVec.setWidth_eq]
  have hsign : (Binary.ofBits w.toNat).sign = if w.toNat / 2 ^ 63 = 1 then -1 else 1 := by
    rw [Binary.sign, Binary.ofBits, Nat.div_div_eq_div_mul]
    exact if_congr decide_eq_true_iff rfl rfl
  rw [hbit, hsign]
  obtain hs | hs : w.toNat / 2 ^ 63 = 0 ∨ w.toNat / 2 ^ 63 = 1 := by omega
  · rw [hs]
    exact Int.one_mul m
  · rw [hs]
    exact Int.neg_one_mul m

theorem mantissa_ofBits (w : UInt64) : (Binary.ofBits w.toNat).mantissa =
    if (@unpackExponent .binary64 w.toBitVec).toNat = 0
    then (@unpackMantissa .binary64 w.toBitVec).toNat
    else (1#1 ++ @unpackMantissa .binary64 w.toBitVec).toNat := by
  rw [toNat_one_append, unpackMantissa_toNat, unpackExponent_toNat]
  rfl

theorem exponent_ofBits (w : UInt64) : (Binary.ofBits w.toNat).exponent =
    if (@unpackExponent .binary64 w.toBitVec).toNat = 0 then -1074
    else ((@unpackExponent .binary64 w.toBitVec).toNat : Int) - 1075 := by
  rw [unpackExponent_toNat]
  change (if w.toNat / 2 ^ 52 % 2048 = 0 then (-1074 : Int)
    else -1074 + ((w.toNat / 2 ^ 52 % 2048 - 1 : Nat) : Int)) = _
  generalize w.toNat / 2 ^ 52 % 2048 = e
  split <;> omega

/-- Both ways of taking a word apart give the same value. -/
theorem unpackedValue?_unpack (w : UInt64) :
    unpackedValue? (UnpackedFloat.unpack .binary64 w.toBitVec) =
      if (@unpackExponent .binary64 w.toBitVec).toNat = 2047 then none
      else some (Binary.ofBits w.toNat).value := by
  have hvalue : (Binary.ofBits w.toNat).value =
      (Sign.ofBitVec (@unpackSign .binary64 w.toBitVec)).apply
        (Binary.ofBits w.toNat).mantissa * 2 ^ (Binary.ofBits w.toNat).exponent := by
    rw [← sign_ofBits, Int.cast_mul, Int.cast_natCast]
    rfl
  rw [hvalue, mantissa_ofBits, exponent_ofBits]
  simp only [UnpackedFloat.unpack]
  split
  next h =>
    rw [if_pos ((exponent_eq_ones_iff _).mp h)]
    split <;> rfl
  next h =>
    rw [if_neg (mt (exponent_eq_ones_iff _).mpr h)]
    split
    next h0 =>
      have h0' := (exponent_eq_zero_iff _).mp h0
      rw [if_pos h0', if_pos h0']
      split
      next hm =>
        rw [hm]
        cases Sign.ofBitVec (@unpackSign .binary64 w.toBitVec) <;>
          simp [unpackedValue?, Sign.apply]
      next hm =>
        rw [h0]
        rfl
    next h0 =>
      have h0' := mt (exponent_eq_zero_iff _).mpr h0
      rw [if_neg h0', if_neg h0']
      rfl

theorem unpackedValue?_eq_none_iff (u : UnpackedFloat) :
    unpackedValue? u = none ↔ u.isNaN ∨ u.isInf := by
  cases u <;> simp [unpackedValue?, UnpackedFloat.isNaN, UnpackedFloat.isInf]

theorem floatValue?_eq (x : Float) : floatValue? x =
    match FloatForm.ofFloat x with
    | .finite b => some b.value
    | _ => none := by
  have hnone : floatValue? x = none ↔ x.isNaN ∨ x.isInf := unpackedValue?_eq_none_iff _
  by_cases hnan : x.isNaN
  · rw [FloatForm.ofFloat, if_pos hnan]
    exact hnone.mpr (.inl hnan)
  by_cases hinf : x.isInf
  · rw [FloatForm.ofFloat, if_neg hnan, if_pos hinf]
    exact hnone.mpr (.inr hinf)
  have hvalue : floatValue? x = _ := unpackedValue?_unpack x.toBits
  have hsome : floatValue? x ≠ none := mt hnone.mp (not_or_intro hnan hinf)
  rw [hvalue] at hsome
  rw [hvalue, FloatForm.ofFloat, if_neg hnan, if_neg hinf]
  exact if_neg fun h => hsome (if_pos h)

namespace Number

/-- The exact value of a number, if it is finite. -/
def value? : Number → Option ℚ
  | int n => some n.toInt
  | float x => floatValue? x

theorem int64?_unless_least {n : Int} {k : Int64} :
    (if n = Int64.minValue.toInt then none else int64? n) = some k ↔
      n = k.toInt ∧ k ≠ Int64.minValue := by
  split
  next h =>
    refine iff_of_false nofun fun hk => hk.2 ?_
    exact Int64.toInt_inj.mp (hk.1.symm.trans h)
  next h =>
    rw [int64?_eq_some_iff, eq_comm, iff_self_and]
    rintro rfl rfl
    exact h rfl

/-- The number is the least integer of the range, as a float. -/
def IsLeastFloat (a : Number) : Prop :=
  (∃ x, a = float x) ∧ a.value? = some (Int64.minValue.toInt : ℚ)

/-- The number is the integer `k`, and not the least one as a float. -/
def Integral (a : Number) (k : Int64) : Prop :=
  a.value? = some (k.toInt : ℚ) ∧ ¬a.IsLeastFloat

variable {a : Number} {k : Int64}

theorem integral_int_iff {n : Int64} : (int n).Integral k ↔ n = k := by
  simp [Integral, IsLeastFloat, value?, Int64.toInt_inj]

theorem integral_float_iff {x : Float} :
    (float x).Integral k ↔ floatValue? x = some (k.toInt : ℚ) ∧ k ≠ Int64.minValue := by
  have hleast : (float x).IsLeastFloat ↔ floatValue? x = some (Int64.minValue.toInt : ℚ) :=
    and_iff_right ⟨x, rfl⟩
  refine and_congr_right fun (hk : floatValue? x = _) => ?_
  rw [hleast, hk, Option.some.injEq, Int.cast_inj, Int64.toInt_inj]

/-- A number converts to an integer if it is one and in range, with one exception. -/
theorem toInt64?_eq_some_iff : a.toInt64? = some k ↔ a.Integral k := by
  cases a with
  | int n => rw [integral_int_iff, toInt64?, Option.some.injEq]
  | float x =>
    rw [toInt64?, integral_float_iff, floatValue?_eq]
    cases FloatForm.ofFloat x with
    | nan => simp
    | infinite => simp
    | finite b =>
      simp only [Option.some.injEq, ← Binary.toInt?_eq_some_iff, Option.bind_eq_some_iff,
        int64?_unless_least]
      constructor
      · rintro ⟨n, hn, rfl, hne⟩
        exact ⟨hn, hne⟩
      · rintro ⟨hk, hne⟩
        exact ⟨_, hk, rfl, hne⟩

/-- The exception is the only one. -/
theorem toInt64?_exact_iff : (∀ k : Int64, a.toInt64? = some k ↔ a.value? = some (k.toInt : ℚ)) ↔
    ¬a.IsLeastFloat := by
  constructor
  · intro h hleast
    exact (toInt64?_eq_some_iff.mp ((h Int64.minValue).mpr hleast.2)).2 hleast
  · intro hleast k
    rw [toInt64?_eq_some_iff, Integral, and_iff_left hleast]

/-- The float `-2 ^ 63`. -/
def leastFloat : Number := float (-9223372036854775808)

theorem leastFloat_value? : leastFloat.value? = some (Int64.minValue.toInt : ℚ) := by
  have hunpack : (-9223372036854775808 : Float).toModel.unpack =
      .finite .negative (2 ^ 52) 11 (by decide) := rfl
  have hleast : Int64.minValue.toInt = -2 ^ 63 := rfl
  rw [leastFloat, value?, floatValue?, hunpack, hleast, unpackedValue?, Sign.apply]
  norm_num

end Number

end Minibasic

import Mathlib
import Minibasic.Value.Operators

/-!
Powers of integers. One that is in range is exact, unless its exponent takes more than thirty-two
bits; any other is a float.
-/

namespace Minibasic

theorem int64?_eq_none {n : Int} (h : 2 ^ 63 < n.natAbs) : int64? n = none := by
  refine if_neg fun hrange => ?_
  change -2 ^ 63 ≤ n ∧ n ≤ 2 ^ 63 - 1 at hrange
  omega

namespace Number

/-- The square of 0, 1 or -1 is idempotent, which leaves nothing but the parity of an exponent. -/
theorem pow_parity {n : Int} (hn : n.natAbs ≤ 1) {e : Nat} (he : 2 ≤ e) :
    n ^ (2 + e % 2) = n ^ e := by
  have hsquare : IsIdempotentElem (n ^ 2) := by
    obtain rfl | rfl | rfl : n = 0 ∨ n = 1 ∨ n = -1 := by omega
    all_goals rfl
  calc n ^ (2 + e % 2) = n ^ 2 * n ^ (e % 2) := pow_add n 2 (e % 2)
    _ = (n ^ 2) ^ (e / 2) * n ^ (e % 2) := by
      obtain ⟨k, hk⟩ := Nat.exists_eq_succ_of_ne_zero (by omega : e / 2 ≠ 0)
      rw [hk, hsquare.pow_succ_eq]
    _ = n ^ e := by rw [← pow_mul, ← pow_add, Nat.div_add_mod]

theorem lt_natAbs_pow {n : Int} (hn : 2 ≤ n.natAbs) {e : Nat} (he : 64 ≤ e) :
    2 ^ 63 < (n ^ e).natAbs := by
  rw [Int.natAbs_pow]
  calc 2 ^ 63 < 2 ^ 64 := by decide
    _ ≤ 2 ^ e := Nat.pow_le_pow_right (by decide) he
    _ ≤ n.natAbs ^ e := Nat.pow_le_pow_left hn e

theorem intPow?_eq (base : Int64) (exponent : Nat) :
    intPow? base exponent = int64? (base.toInt ^ exponent) := by
  unfold intPow?
  split
  next => rfl
  next hlarge =>
    split
    next hunit =>
      rw [← pow_parity hunit (by omega : 2 ≤ exponent)]
      rfl
    next hbase => rw [int64?_eq_none (lt_natAbs_pow (by omega) (by omega))]

variable {l r k : Int64}

/-- The power of two integers as an integer. -/
def exactPower? (l r : Int64) : Option Int64 :=
  if r ≤ maxExponent then int64? (l.toInt ^ r.toInt.toNat) else none

theorem exactPower?_eq_some_iff :
    exactPower? l r = some k ↔ k.toInt = l.toInt ^ r.toInt.toNat ∧ r ≤ maxExponent := by
  unfold exactPower?
  split
  next h => rw [int64?_eq_some_iff, and_iff_left h]
  next h => simp [h]

/-- The power of two integers as a float. -/
def roundedPower (l r : Int64) : Number := float ((toFloat (int l)).pow (toFloat (int r)))

theorem pow_int (hr : 0 ≤ r) :
    pow (int l) (int r) = (exactPower? l r).elim (roundedPower l r) int := by
  unfold pow exactPower?
  by_cases h : r ≤ maxExponent
  · rw [if_pos h]
    simp only [h, hr, and_self, if_true, intPow?_eq]
    cases int64? (l.toInt ^ r.toInt.toNat) <;> rfl
  · rw [if_neg h]
    exact if_neg fun hle => h hle.2

theorem binary_pow_iff (hr : 0 ≤ r) : Datum.binary .pow (.int l) (.int r) = .ok (.int k) ↔
    exactPower? l r = some k := by
  change Except.ok (Datum.number (pow (int l) (int r))) = .ok (.number (int k)) ↔ _
  rw [pow_int hr, Except.ok.injEq, Datum.number.injEq]
  cases exactPower? l r with
  | none => simp [roundedPower]
  | some j => simp

/-- Beyond the greatest exponent only powers of 0, 1 and -1 are in range. -/
theorem natAbs_base_le_one (hr : maxExponent < r) (h : k.toInt = l.toInt ^ r.toInt.toNat) :
    l.toInt.natAbs ≤ 1 := by
  by_contra hl
  have hexponent : maxExponent.toInt < r.toInt := Int64.lt_iff_toInt_lt.mp hr
  change 2 ^ 32 - 1 < r.toInt at hexponent
  have hlarge := lt_natAbs_pow (n := l.toInt) (e := r.toInt.toNat) (by omega) (by omega)
  have hlow := Int64.le_toInt k
  have hhigh := Int64.toInt_lt k
  omega

/-- A power of integers is exact where it fits, except beyond the greatest exponent. -/
theorem integer_power (hr : 0 ≤ r) :
    (∀ k, Datum.binary .pow (.int l) (.int r) = .ok (.int k) ↔
      k.toInt = l.toInt ^ r.toInt.toNat ∧ r ≤ maxExponent) ∧
    ((∀ k : Int64, k.toInt = l.toInt ^ r.toInt.toNat → maxExponent < r) →
      Datum.binary .pow (.int l) (.int r) = .ok (.number (roundedPower l r))) ∧
    (1 < l.toInt.natAbs → ∀ k, Datum.binary .pow (.int l) (.int r) = .ok (.int k) ↔
      k.toInt = l.toInt ^ r.toInt.toNat) := by
  refine ⟨fun k => ?_, fun h => ?_, fun h k => ?_⟩
  · rw [binary_pow_iff hr, exactPower?_eq_some_iff]
  · have hnone : exactPower? l r = none := by
      refine Option.eq_none_iff_forall_ne_some.mpr fun k hk => ?_
      obtain ⟨hk, hle⟩ := exactPower?_eq_some_iff.mp hk
      exact absurd (h k hk) (Int64.not_lt.mpr hle)
    change Except.ok (Datum.number (pow (int l) (int r))) = _
    rw [pow_int hr, hnone]
    rfl
  · rw [binary_pow_iff hr, exactPower?_eq_some_iff, and_iff_left_iff_imp]
    intro hk
    by_contra hle
    exact absurd h (Nat.not_lt.mpr (natAbs_base_le_one (Int64.not_le.mp hle) hk))

/-- The least integer is a power, and the next one after the greatest is not. -/
theorem integer_power_ends : (0 : Int64) ≤ 63 ∧
    Datum.binary .pow (.int (-2)) (.int 63) = .ok (.int Int64.minValue) ∧
    Datum.binary .pow (.int 2) (.int 63) = .ok (.number (roundedPower 2 63)) := by
  have hr : (0 : Int64) ≤ 63 := by decide
  refine ⟨hr, ((integer_power hr).1 _).mpr ⟨by decide, by decide⟩,
    (integer_power hr).2.1 fun k hk => absurd hk ?_⟩
  have hlt := Int64.toInt_lt k
  exact hlt.ne

/-- One to the power of the least exponent that takes more than thirty-two bits. -/
theorem integer_power_not_exact :
    (1 : Int64).toInt = (1 : Int64).toInt ^ (4294967296 : Int64).toInt.toNat ∧
    Datum.binary .pow (.int 1) (.int 4294967296) ≠ .ok (.int 1) := by
  refine ⟨(one_pow _).symm, ?_⟩
  rw [Ne, binary_pow_iff (by decide)]
  decide

end Number

end Minibasic

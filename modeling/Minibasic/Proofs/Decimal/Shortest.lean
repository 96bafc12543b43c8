import Mathlib.Algebra.Order.Field.Rat
import Mathlib.Tactic.FieldSimp
import Mathlib.Tactic.Linarith
import Mathlib.Tactic.NormNum
import Mathlib.Tactic.Positivity
import Minibasic.Decimal.Shortest
import Minibasic.Proofs.Decimal.Digits

/-!
The shortest decimal lies in the interval that it is looked for in. Seventeen digits are enough for
that, and the intervals of different floats have no number in common.
-/

namespace Minibasic.Decimal

/-- A power with a negative exponent, on the other side. -/
theorem mul_pow_toNat {b : Nat} (hb : 0 < b) (a : Nat) (e : Int) :
    ((a * b ^ e.toNat : Nat) : ℚ) = a * b ^ e * b ^ (-e).toNat := by
  have hb' : (b : ℚ) ≠ 0 := Nat.cast_ne_zero.mpr hb.ne'
  rw [mul_assoc, ← zpow_natCast, ← zpow_add₀ hb']
  push_cast
  rw [← zpow_natCast]
  congr 2
  omega

namespace Rounding

variable {r : Rounding} {e : Int} {n : Nat} {q : ℚ}

/-- The interval contains `q`. -/
structure Contains (r : Rounding) (q : ℚ) : Prop where
  low : r.low ≤ q * r.scale
  high : q * r.scale ≤ r.high
  inner : r.closed = false → r.low < q * r.scale ∧ q * r.scale < r.high

theorem holds_iff : r.holds e n ↔ r.Contains (n * 10 ^ e) := by
  have hpow : (0 : ℚ) < 10 ^ (-e).toNat := by positivity
  have hpoint : ((n * 10 ^ e.toNat * r.scale : Nat) : ℚ) =
      n * 10 ^ e * r.scale * 10 ^ (-e).toNat := by
    have h := mul_pow_toNat (b := 10) (by decide) n e
    push_cast at h ⊢
    rw [h]
    ring
  have hbound (a : Nat) : ((a * 10 ^ (-e).toNat : Nat) : ℚ) = a * 10 ^ (-e).toNat := by
    push_cast
    rfl
  have hle (a b : Nat) : a ≤ b ↔ (a : ℚ) ≤ b := Nat.cast_le.symm
  have hlt (a b : Nat) : a < b ↔ (a : ℚ) < b := Nat.cast_lt.symm
  simp only [holds, Nat.pow_eq]
  split
  next hclosed =>
    rw [Bool.and_eq_true, decide_eq_true_iff, decide_eq_true_iff, hle, hle, hpoint, hbound, hbound,
      mul_le_mul_iff_of_pos_right hpow, mul_le_mul_iff_of_pos_right hpow]
    exact ⟨fun h => ⟨h.1, h.2, by simp [hclosed]⟩, fun h => ⟨h.low, h.high⟩⟩
  next hopen =>
    rw [Bool.and_eq_true, decide_eq_true_iff, decide_eq_true_iff, hlt, hlt, hpoint, hbound, hbound,
      mul_lt_mul_iff_of_pos_right hpow, mul_lt_mul_iff_of_pos_right hpow]
    exact ⟨fun h => ⟨h.1.le, h.2.le, fun _ => h⟩, fun h => h.inner (by simpa using hopen)⟩

/-! ### Decimals in the interval -/

/-- Two multiples are tried, and the first is at most half a unit from the value. -/
theorem nearest_eq (r : Rounding) (tieUp : Bool) (e : Int) : ∃ first second : Nat,
    (r.nearest tieUp e = if r.holds e first then some first
      else if r.holds e second then some second else none) ∧
    (0 < r.scale →
      2 * (first * (r.scale * 10 ^ e.toNat)) ≤
        2 * (r.value * 10 ^ (-e).toNat) + r.scale * 10 ^ e.toNat ∧
      2 * (r.value * 10 ^ (-e).toNat) ≤
        2 * (first * (r.scale * 10 ^ e.toNat)) + r.scale * 10 ^ e.toNat) := by
  simp only [nearest, Nat.pow_eq]
  generalize r.value * 10 ^ (-e).toNat = value
  generalize hunit : r.scale * 10 ^ e.toNat = unit
  have hdiv := Nat.div_add_mod' value unit
  have hmod : 0 < r.scale → value % unit < unit := fun h =>
    Nat.mod_lt value (hunit ▸ Nat.mul_pos h (Nat.pow_pos (by decide)))
  split
  next hup =>
    refine ⟨value / unit + 1, value / unit, rfl, fun h => ?_⟩
    have hmod := hmod h
    have hle : unit ≤ 2 * (value % unit) := by
      simp only [Bool.or_eq_true, Bool.and_eq_true, decide_eq_true_eq] at hup
      omega
    rw [Nat.add_mul, Nat.one_mul]
    omega
  next hdown =>
    refine ⟨value / unit, value / unit + 1, rfl, fun _ => ?_⟩
    have hle : 2 * (value % unit) ≤ unit := by
      simp only [Bool.or_eq_true, Bool.and_eq_true, decide_eq_true_eq, not_or] at hdown
      omega
    omega

/-- What is taken lies in the interval. -/
theorem holds_of_nearest {tieUp : Bool} (h : r.nearest tieUp e = some n) : r.holds e n := by
  obtain ⟨first, second, heq, -⟩ := nearest_eq r tieUp e
  rw [heq] at h
  split at h
  · cases h
    assumption
  · split at h
    · cases h
      assumption
    · cases h

/-- If all multiples that are at most half a unit from the value lie in the interval, one of them
is found. -/
theorem nearest_isSome (hscale : 0 < r.scale)
    (h : ∀ n : Nat, 2 * (n * 10 ^ e * r.scale) ≤ 2 * r.value + 10 ^ e * (r.scale : ℚ) →
      2 * (r.value : ℚ) ≤ 2 * (n * 10 ^ e * r.scale) + 10 ^ e * (r.scale : ℚ) → r.holds e n)
    (tieUp : Bool) : (r.nearest tieUp e).isSome := by
  obtain ⟨first, second, heq, hclose⟩ := nearest_eq r tieUp e
  have hpow : (0 : ℚ) < 10 ^ (-e).toNat := by positivity
  have hunit : ((r.scale * 10 ^ e.toNat : Nat) : ℚ) = 10 ^ e * r.scale * 10 ^ (-e).toNat := by
    rw [mul_pow_toNat (by decide)]
    push_cast
    ring
  have hfirst : r.holds e first := by
    obtain ⟨hlow, hhigh⟩ := hclose hscale
    have hlow : ((2 * (first * (r.scale * 10 ^ e.toNat)) : Nat) : ℚ) ≤
        (2 * (r.value * 10 ^ (-e).toNat) + r.scale * 10 ^ e.toNat : Nat) := Nat.cast_le.mpr hlow
    have hhigh : ((2 * (r.value * 10 ^ (-e).toNat) : Nat) : ℚ) ≤
        (2 * (first * (r.scale * 10 ^ e.toNat)) + r.scale * 10 ^ e.toNat : Nat) :=
      Nat.cast_le.mpr hhigh
    simp only [Nat.cast_mul 2, Nat.cast_add, Nat.cast_mul first, hunit] at hlow hhigh
    push_cast at hlow hhigh
    refine h first ?_ ?_
    · rw [← mul_le_mul_iff_of_pos_right hpow]
      linarith
    · rw [← mul_le_mul_iff_of_pos_right hpow]
      linarith
  rw [heq, if_pos hfirst]
  rfl

/-- The value is at least as large as its magnitude says. -/
theorem magnitude_le (hscale : 0 < r.scale) (hvalue : 0 < r.value) :
    (10 : ℚ) ^ r.magnitude * r.scale ≤ 10 * r.value := by
  have hten : (10 : ℚ) ≠ 0 := by norm_num
  unfold magnitude
  dsimp only
  rw [Nat.pow_eq]
  generalize hshift : (digits r.scale).length = shift
  have hlt : r.scale < 10 ^ shift := hshift ▸ lt_pow_length_digits r.scale
  have hpos : 0 < r.value * 10 ^ shift / r.scale :=
    Nat.div_pos (hlt.le.trans (Nat.le_mul_of_pos_left _ hvalue)) hscale
  have hdigits := Nat.mul_le_mul_right r.scale (pow_length_digits_le hpos)
  have hdiv := Nat.div_mul_le_self (r.value * 10 ^ shift) r.scale
  have hle : 10 ^ (digits (r.value * 10 ^ shift / r.scale)).length * r.scale ≤
      10 * r.value * 10 ^ shift := by
    rw [Nat.mul_assoc] at hdigits ⊢
    omega
  have hpow : (0 : ℚ) < 10 ^ shift := by positivity
  rw [zpow_sub₀ hten, zpow_natCast, zpow_natCast, div_mul_eq_mul_div, div_le_iff₀ hpow]
  exact_mod_cast hle

end Rounding

/-- A decimal in the interval is found if seventeen digits are enough for one. -/
theorem exists_shortest {r : Rounding} {tieUp : Bool}
    (h : (r.nearest tieUp (r.magnitude - 17)).isSome) :
    ∃ n e, r.holds e n ∧ shortest r tieUp = .ofNat n e := by
  unfold shortest
  dsimp only
  generalize htries : (List.range 17).map (fun n : Nat => r.magnitude - (n + 1 : Int)) = tries
  cases hfound : tries.findSome? fun e => (r.nearest tieUp e).map fun n => Scientific.ofNat n e with
  | none =>
    have hlast : r.magnitude - 17 ∈ tries := by
      rw [← htries]
      exact List.mem_map.mpr ⟨16, by simp, rfl⟩
    have hnone := List.findSome?_eq_none_iff.mp hfound _ hlast
    rw [Option.map_eq_none_iff] at hnone
    rw [hnone] at h
    cases h
  | some s =>
    obtain ⟨e, -, he⟩ := List.exists_of_findSome?_eq_some hfound
    obtain ⟨n, hn, rfl⟩ := Option.map_eq_some_iff.mp he
    exact ⟨n, e, Rounding.holds_of_nearest hn, rfl⟩

/-! ### The intervals of floats -/

/-- A mantissa of at most fifty-three bits, of fewer only at the least exponent. -/
structure Canonical (m : Nat) (e : Int) : Prop where
  lt : m < 2 ^ 53
  le : 2 ^ 52 ≤ m ∨ e = -1074
  least : -1074 ≤ e

/-- The neighbour below is nearer than the one above. -/
def Narrow (m : Nat) (e : Int) : Prop := m = 2 ^ 52 ∧ -1074 < e

namespace Rounding

variable {m m' : Nat} {e e' : Int} {q : ℚ} {narrow narrow' : Bool}

/-- How many quarters of a unit the interval reaches downwards. -/
def reach (narrow : Bool) : Nat := if narrow then 1 else 2

theorem cast_mul_two_pow (a : Nat) (e : Int) :
    ((a * 2 ^ e.toNat : Nat) : ℚ) = a * 2 ^ e * 2 ^ (-e).toNat := by
  have h := mul_pow_toNat (b := 2) (by decide) a e
  push_cast at h ⊢
  exact h

/-- The interval of a float, in quarters of its unit. -/
theorem contains_ofBinary_iff : (ofBinary m e narrow).Contains q ↔
    ((4 * m - reach narrow : Nat) : ℚ) * 2 ^ e ≤ 4 * q ∧
      4 * q ≤ ((4 * m + 2 : Nat) : ℚ) * 2 ^ e ∧
      (m % 2 = 1 → ((4 * m - reach narrow : Nat) : ℚ) * 2 ^ e < 4 * q ∧
        4 * q < ((4 * m + 2 : Nat) : ℚ) * 2 ^ e) := by
  have hpow : (0 : ℚ) < 2 ^ (-e).toNat := by positivity
  have hscale : q * (ofBinary m e narrow).scale = 4 * q * 2 ^ (-e).toNat := by
    simp only [ofBinary, Nat.pow_eq]
    push_cast
    ring
  have hlow : ((ofBinary m e narrow).low : ℚ) =
      ((4 * m - reach narrow : Nat) : ℚ) * 2 ^ e * 2 ^ (-e).toNat := cast_mul_two_pow _ e
  have hhigh : ((ofBinary m e narrow).high : ℚ) =
      ((4 * m + 2 : Nat) : ℚ) * 2 ^ e * 2 ^ (-e).toNat := cast_mul_two_pow _ e
  have hclosed : (ofBinary m e narrow).closed = false ↔ m % 2 = 1 := by
    simp [ofBinary]
  constructor
  · rintro ⟨hl, hh, hi⟩
    rw [hscale, hlow, hhigh] at hi
    rw [hscale, hlow, mul_le_mul_iff_of_pos_right hpow] at hl
    rw [hscale, hhigh, mul_le_mul_iff_of_pos_right hpow] at hh
    rw [hclosed, mul_lt_mul_iff_of_pos_right hpow, mul_lt_mul_iff_of_pos_right hpow] at hi
    exact ⟨hl, hh, hi⟩
  · rintro ⟨hl, hh, hi⟩
    refine ⟨?_, ?_, ?_⟩
    · rwa [hscale, hlow, mul_le_mul_iff_of_pos_right hpow]
    · rwa [hscale, hhigh, mul_le_mul_iff_of_pos_right hpow]
    · rwa [hscale, hlow, hhigh, hclosed, mul_lt_mul_iff_of_pos_right hpow,
        mul_lt_mul_iff_of_pos_right hpow]

/-- The interval reaches below the value, by less than the value itself and by more than what
seventeen digits leave out. -/
theorem reach_bounds (hm : 0 < m) (hc : Canonical m e) (hnarrow : narrow → Narrow m e) :
    2 * m < reach narrow * 10 ^ 16 ∧ reach narrow ≤ 4 * m := by
  have hlt := hc.lt
  unfold reach
  split
  next h =>
    have hm := (hnarrow h).1
    omega
  next => omega

/-- A decimal that is at most half a unit from a float lies inside of its interval, if the unit is
too small to leave the interval with half of it. -/
theorem contains_of_near {unit : ℚ} {n : Nat} (hm : 0 < m) (hc : Canonical m e)
    (hnarrow : narrow → Narrow m e) (hsmall : unit * 10 ^ 16 ≤ m * 2 ^ e)
    (hlow : 2 * (n * unit) ≤ 2 * (m * 2 ^ e) + unit)
    (hhigh : 2 * (m * 2 ^ e) ≤ 2 * (n * unit) + unit) :
    (ofBinary m e narrow).Contains (n * unit) := by
  have hU : (0 : ℚ) < 2 ^ e := zpow_pos (by norm_num) e
  have hreach := reach_bounds hm hc hnarrow
  have hdown : 2 * (m * 2 ^ e) < reach narrow * 10 ^ 16 * (2 : ℚ) ^ e := by
    rw [← mul_assoc]
    exact mul_lt_mul_of_pos_right (by exact_mod_cast hreach.1) hU
  have hup : 2 * (m * 2 ^ e) < 2 * 10 ^ 16 * (2 : ℚ) ^ e := by
    rw [← mul_assoc]
    exact mul_lt_mul_of_pos_right (by exact_mod_cast (by have := hc.lt; omega)) hU
  have hl : ((4 * m - reach narrow : Nat) : ℚ) * 2 ^ e < 4 * (n * unit) := by
    rw [Nat.cast_sub hreach.2]
    push_cast
    linarith
  have hh : 4 * (n * unit) < ((4 * m + 2 : Nat) : ℚ) * 2 ^ e := by
    push_cast
    linarith
  exact contains_ofBinary_iff.mpr ⟨hl.le, hh.le, fun _ => ⟨hl, hh⟩⟩

/-- Seventeen digits are enough for a float: the decimals with so many are nearer to each other than
the ends of the interval are to its value. -/
theorem nearest_ofBinary_isSome (hm : 0 < m) (hc : Canonical m e)
    (hnarrow : narrow → Narrow m e) (tieUp : Bool) :
    ((ofBinary m e narrow).nearest tieUp ((ofBinary m e narrow).magnitude - 17)).isSome := by
  have hpow : (0 : ℚ) < 2 ^ (-e).toNat := by positivity
  have hscale : ((ofBinary m e narrow).scale : ℚ) = 4 * 2 ^ (-e).toNat := by
    simp [ofBinary]
  have hvalue : ((ofBinary m e narrow).value : ℚ) = 4 * m * 2 ^ e * 2 ^ (-e).toNat := by
    have h := cast_mul_two_pow (4 * m) e
    rw [Nat.cast_mul 4 m] at h
    exact h
  have hscale' : 0 < (ofBinary m e narrow).scale :=
    Nat.mul_pos (by decide) (Nat.pow_pos (by decide))
  have hvalue' : 0 < (ofBinary m e narrow).value :=
    Nat.mul_pos (Nat.mul_pos (by decide) hm) (Nat.pow_pos (by decide))
  have hmagnitude := magnitude_le hscale' hvalue'
  refine nearest_isSome hscale' (fun n hlow hhigh => ?_) tieUp
  rw [holds_iff]
  have hunit : (10 : ℚ) ^ (ofBinary m e narrow).magnitude =
      10 ^ ((ofBinary m e narrow).magnitude - 17) * 10 ^ 17 := by
    rw [zpow_sub₀ (by norm_num)]
    field_simp
  rw [hunit, hscale, hvalue] at hmagnitude
  rw [hscale, hvalue] at hlow hhigh
  generalize (10 : ℚ) ^ ((ofBinary m e narrow).magnitude - 17) = unit at *
  refine contains_of_near hm hc hnarrow ?_ ?_ ?_
  all_goals
    rw [← mul_le_mul_iff_of_pos_right hpow]
    linarith

/-- Of two floats the interval of the smaller ends before that of the larger, or both end at the
same number, and one of the mantissas is odd. -/
theorem high_le_low (hc : Canonical m e) (hc' : Canonical m' e')
    (hnarrow' : Narrow m' e' → narrow') (hlt : e < e' ∨ e = e' ∧ m < m') :
    ((4 * m + 2 : Nat) : ℚ) * 2 ^ e ≤ ((4 * m' - reach narrow' : Nat) : ℚ) * 2 ^ e' ∧
      (m % 2 = 0 → m' % 2 = 0 →
        ((4 * m + 2 : Nat) : ℚ) * 2 ^ e < ((4 * m' - reach narrow' : Nat) : ℚ) * 2 ^ e') := by
  have hU : (0 : ℚ) < 2 ^ e := zpow_pos (by norm_num) e
  have hreach : reach narrow' ≤ 2 := by
    unfold reach
    split <;> decide
  rcases hlt with hlt | ⟨rfl, hlt⟩
  · -- the smaller unit is at most half of the larger, whose mantissa has its leading bit
    have hdouble : 2 * (2 : ℚ) ^ e ≤ 2 ^ e' := by
      rw [mul_comm, ← zpow_add_one₀ (by norm_num)]
      exact zpow_le_zpow_right₀ (by norm_num) (by omega)
    have hlow : 2 ^ 55 - 2 ≤ 2 * (4 * m' - reach narrow') := by
      have hleading := hc'.le
      have hleast := hc.least
      by_cases hpower : m' = 2 ^ 52
      · have hone : reach narrow' = 1 := by
          rw [hnarrow' ⟨hpower, by omega⟩]
          rfl
        omega
      · omega
    have hmono : ((4 * m' - reach narrow' : Nat) : ℚ) * (2 * 2 ^ e) ≤
        ((4 * m' - reach narrow' : Nat) : ℚ) * 2 ^ e' :=
      mul_le_mul_of_nonneg_left hdouble (Nat.cast_nonneg _)
    have hassoc : ((4 * m' - reach narrow' : Nat) : ℚ) * (2 * 2 ^ e) =
        ((2 * (4 * m' - reach narrow') : Nat) : ℚ) * 2 ^ e := by
      push_cast
      ring
    rw [hassoc] at hmono
    have hm := hc.lt
    refine ⟨(mul_le_mul_of_nonneg_right ?_ hU.le).trans hmono, fun heven _ =>
      (mul_lt_mul_of_pos_right ?_ hU).trans_le hmono⟩
    · exact Nat.cast_le.mpr (by omega)
    · exact Nat.cast_lt.mpr (by omega)
  · refine ⟨mul_le_mul_of_nonneg_right ?_ hU.le, fun heven heven' =>
      mul_lt_mul_of_pos_right ?_ hU⟩
    · exact Nat.cast_le.mpr (by omega)
    · exact Nat.cast_lt.mpr (by omega)

/-- An interval that ends before another one has no number in common with it. -/
theorem not_contains_of_lt (hc : Canonical m e) (hc' : Canonical m' e')
    (hnarrow' : Narrow m' e' → narrow') (hlt : e < e' ∨ e = e' ∧ m < m')
    (h : (ofBinary m e narrow).Contains q) : ¬(ofBinary m' e' narrow').Contains q := by
  intro h'
  obtain ⟨-, hhigh, hinner⟩ := contains_ofBinary_iff.mp h
  obtain ⟨hlow, -, hinner'⟩ := contains_ofBinary_iff.mp h'
  obtain ⟨hle, hstrict⟩ := high_le_low hc hc' hnarrow' hlt
  rcases Nat.mod_two_eq_zero_or_one m with heven | hodd
  · rcases Nat.mod_two_eq_zero_or_one m' with heven' | hodd'
    · have hlt := hstrict heven heven'
      linarith
    · have hlt := (hinner' hodd').1
      linarith
  · have hlt := (hinner hodd).2
    linarith

/-- No number rounds to two floats. -/
theorem eq_of_contains (hc : Canonical m e) (hc' : Canonical m' e')
    (hnarrow : Narrow m e → narrow) (hnarrow' : Narrow m' e' → narrow')
    (h : (ofBinary m e narrow).Contains q) (h' : (ofBinary m' e' narrow').Contains q) :
    m = m' ∧ e = e' := by
  rcases Int.lt_trichotomy e e' with he | rfl | he
  · exact absurd h' (not_contains_of_lt hc hc' hnarrow' (.inl he) h)
  · rcases Nat.lt_trichotomy m m' with hm | rfl | hm
    · exact absurd h' (not_contains_of_lt hc hc' hnarrow' (.inr ⟨rfl, hm⟩) h)
    · exact ⟨rfl, rfl⟩
    · exact absurd h (not_contains_of_lt hc' hc hnarrow (.inr ⟨rfl, hm⟩) h')
  · exact absurd h (not_contains_of_lt hc' hc hnarrow (.inl he) h')

/-- What rounds to a float that is not zero is positive. -/
theorem pos_of_contains (hm : 0 < m) (h : (ofBinary m e narrow).Contains q) : 0 < q := by
  have hlow := (contains_ofBinary_iff.mp h).1
  have hreach : 0 < 4 * m - reach narrow := by
    unfold reach
    split <;> omega
  have hpos : (0 : ℚ) < ((4 * m - reach narrow : Nat) : ℚ) * 2 ^ e :=
    mul_pos (Nat.cast_pos.mpr hreach) (zpow_pos (by norm_num) e)
  linarith

end Rounding

end Minibasic.Decimal

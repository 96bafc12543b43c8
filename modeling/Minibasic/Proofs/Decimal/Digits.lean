import Mathlib.Data.Nat.Basic
import Mathlib.Tactic.Ring
import Minibasic.Decimal.Digits

/-!
Decimal digits read back. The digits of a number stand for it and are as many as its size asks for,
so numbers with the same digits are the same.
-/

namespace Minibasic.Decimal

/-- The ten digits have the values from zero to nine. -/
theorem digitChar_table : ∀ d < 10, isDigit (digitChar d) ∧ digitValue (digitChar d) = d := by
  decide

theorem valueFrom_cons (n : Nat) (c : Char) (cs : List Char) :
    valueFrom n (c :: cs) = valueFrom (10 * n + digitValue c) cs := by
  rw [valueFrom, List.foldl_cons, valueFrom]

theorem valueFrom_append (n : Nat) (cs ds : List Char) :
    valueFrom n (cs ++ ds) = valueFrom (valueFrom n cs) ds :=
  List.foldl_append

/-- Digits behind a number move it to the left. -/
theorem valueFrom_eq (n : Nat) (cs : List Char) :
    valueFrom n cs = n * 10 ^ cs.length + value cs := by
  induction cs generalizing n with
  | nil => simp [valueFrom, value]
  | cons c cs ih =>
    rw [value, valueFrom_cons, valueFrom_cons, ih, ih (10 * 0 + digitValue c), List.length_cons]
    ring

theorem value_append (cs ds : List Char) :
    value (cs ++ ds) = value cs * 10 ^ ds.length + value ds := by
  rw [value, valueFrom_append, valueFrom_eq]
  rfl

theorem value_zeros (k : Nat) : value (List.replicate k '0') = 0 := by
  induction k with
  | zero => rfl
  | succ k ih => exact ih

/-! ### The digits of a number -/

theorem digits_of_lt {n : Nat} (h : n < 10) : digits n = [digitChar n] := by
  rw [digits, if_pos h]

theorem digits_of_le {n : Nat} (h : 10 ≤ n) :
    digits n = digits (n / 10) ++ [digitChar (n % 10)] := by
  rw [digits, if_neg (Nat.not_lt.mpr h)]

/-- Induction on a number without its last digit. -/
theorem induction_on_digits {P : Nat → Prop} (small : ∀ n < 10, P n)
    (large : ∀ n, 10 ≤ n → P (n / 10) → P n) (n : Nat) : P n := by
  induction n using Nat.strong_induction_on with
  | _ n ih =>
    by_cases h : n < 10
    · exact small n h
    · exact large n (Nat.not_lt.mp h) (ih _ (by omega))

theorem isDigit_of_mem_digits (n : Nat) : ∀ c ∈ digits n, isDigit c := by
  induction n using induction_on_digits with
  | small n h => simpa [digits_of_lt h] using (digitChar_table n h).1
  | large n h ih =>
    intro c hc
    rw [digits_of_le h] at hc
    rcases List.mem_append.mp hc with hc | hc
    · exact ih c hc
    · rw [List.mem_singleton.mp hc]
      exact (digitChar_table _ (Nat.mod_lt n (by decide))).1

theorem value_digits (n : Nat) : value (digits n) = n := by
  induction n using induction_on_digits with
  | small n h =>
    rw [digits_of_lt h, value, valueFrom_cons, (digitChar_table n h).2]
    simp [valueFrom]
  | large n h ih =>
    rw [digits_of_le h, value_append, ih, value, valueFrom_cons,
      (digitChar_table _ (Nat.mod_lt n (by decide))).2]
    change n / 10 * 10 ^ 1 + (10 * 0 + n % 10) = n
    omega

theorem digits_injective : Function.Injective digits :=
  Function.LeftInverse.injective value_digits

theorem digits_ne_nil (n : Nat) : digits n ≠ [] := by
  induction n using induction_on_digits with
  | small n h => simp [digits_of_lt h]
  | large n h => simp [digits_of_le h]

/-- There are as many digits as the size of the number asks for. -/
theorem lt_pow_length_digits (n : Nat) : n < 10 ^ (digits n).length := by
  induction n using induction_on_digits with
  | small n h => simpa [digits_of_lt h] using h
  | large n h ih =>
    rw [digits_of_le h, List.length_append, List.length_singleton, Nat.pow_succ]
    omega

theorem pow_length_digits_le {n : Nat} (hn : 0 < n) : 10 ^ (digits n).length ≤ 10 * n := by
  induction n using induction_on_digits with
  | small n h => simp [digits_of_lt h]; omega
  | large n h ih =>
    have hdiv := ih (by omega)
    rw [digits_of_le h, List.length_append, List.length_singleton, Nat.pow_succ]
    omega

end Minibasic.Decimal

import Mathlib
import Minibasic.Value.Operators

/-!
The operators that integers are closed under, in arithmetic without bounds. On 64-bit integers an
operator gives the exact result if this is such an integer, and a float otherwise.
-/

namespace Minibasic

/-- A truth value as an integer. -/
def truth (b : Bool) : Int := if b then 1 else 0

namespace BinaryOp

def isArithmetic : BinaryOp → Bool
  | add | sub | mul => true
  | _ => false

/-- The operator takes integers to integers: all but quotients and powers. -/
def isExact : BinaryOp → Bool
  | div | pow => false
  | _ => true

/-- The result on integers without bounds. -/
def exact : BinaryOp → Int → Int → Int
  | add, a, b => a + b
  | sub, a, b => a - b
  | mul, a, b => a * b
  | eq, a, b => truth (a = b)
  | ne, a, b => truth (a ≠ b)
  | lt, a, b => truth (a < b)
  | le, a, b => truth (a ≤ b)
  | gt, a, b => truth (b < a)
  | ge, a, b => truth (b ≤ a)
  | and, a, b => truth (a ≠ 0 ∧ b ≠ 0)
  | or, a, b => truth (a ≠ 0 ∨ b ≠ 0)
  | div, _, _ | pow, _, _ => 0

/-- What the arithmetic operators do with floats. -/
def rounded : BinaryOp → Float → Float → Float
  | sub, x, y => x - y
  | mul, x, y => x * y
  | _, x, y => x + y

end BinaryOp

/-- The result on an integer without bounds. -/
def UnaryOp.exact : UnaryOp → Int → Int
  | plus, a => a
  | minus, a => -a
  | not, a => truth (a = 0)

/-- The integer is one of 64 bits. -/
def InRange (n : Int) : Prop := Int64.minValue.toInt ≤ n ∧ n ≤ Int64.maxValue.toInt

instance (n : Int) : Decidable (InRange n) := inferInstanceAs (Decidable (_ ∧ _))

theorem inRange_iff {n : Int} : InRange n ↔ ∃ k, int64? n = some k := by
  simp [InRange, int64?]

theorem int64?_eq_none_of_not_inRange {n : Int} (h : ¬InRange n) : int64? n = none := if_neg h

namespace Datum

variable {a b k : Int64}

theorem ofBool_eq_int {t : Bool} (h : k.toInt = truth t) : ofBool t = int k := by
  have hk : k = if t then 1 else 0 := by
    rw [← Int64.toInt_inj, h]
    cases t <;> rfl
  rw [hk]
  rfl

theorem isTrue_int (k : Int64) : (int k).isTrue = decide (k.toInt ≠ 0) := by
  have hzero : k.toInt = 0 ↔ k = 0 := Int64.toInt_inj (y := 0)
  rw [Bool.eq_iff_iff]
  simp [int, isTrue, Number.isZero, hzero]

theorem compare?_int (a b : Int64) :
    (Number.int a).compare? (.int b) = some (compare a.toInt b.toInt) := by
  simp [Number.compare?, compare, compareOfLessAndEq, Int64.lt_iff_toInt_lt, ← Int64.toInt_inj]

/-- An arithmetic operation on integers is exact as long as the result is in range. -/
theorem binary_arithmetic {op : BinaryOp} (hop : op.isArithmetic) (a b : Int64) :
    binary op (int a) (int b) =
      .ok (number ((int64? (op.exact a.toInt b.toInt)).elim
        (.float (op.rounded (.ofInt a.toInt) (.ofInt b.toInt))) .int)) := by
  have hcombine : binary op (int a) (int b) =
      .ok (number (Number.combine op.exact op.rounded (.int a) (.int b))) := by
    cases op <;> first | rfl | cases hop
  rw [hcombine, Number.combine]
  cases int64? (op.exact a.toInt b.toInt) <;> rfl

/-- The other operators are tests. -/
theorem binary_truth {op : BinaryOp} (hop : op.isExact) (hno : op.isArithmetic = false)
    (a b : Int64) :
    ∃ t, binary op (int a) (int b) = .ok (ofBool t) ∧ op.exact a.toInt b.toInt = truth t := by
  cases op with
  | add | sub | mul => cases hno
  | div | pow => cases hop
  | eq | ne | lt | le | gt | ge =>
    refine ⟨_, rfl, ?_⟩
    rw [compare?_int]
    rcases lt_trichotomy a.toInt b.toInt with h | h | h
    · simp [compare_lt_iff_lt.mpr h, BinaryOp.exact, bne, h, h.le, h.ne, h.not_gt, h.not_ge]
    · simp [BinaryOp.exact, h]
    · simp [compare_gt_iff_gt.mpr h, BinaryOp.exact, bne, h, h.le, h.ne', h.not_gt, h.not_ge]
  | and =>
    refine ⟨(int a).isTrue && (int b).isTrue, rfl, ?_⟩
    rw [isTrue_int, isTrue_int, BinaryOp.exact, Bool.decide_and]
  | or =>
    refine ⟨(int a).isTrue || (int b).isTrue, rfl, ?_⟩
    rw [isTrue_int, isTrue_int, BinaryOp.exact, Bool.decide_or]

theorem binary_exact {op : BinaryOp} (hop : op.isExact)
    (hk : k.toInt = op.exact a.toInt b.toInt) : binary op (int a) (int b) = .ok (int k) := by
  cases harith : op.isArithmetic with
  | true =>
    rw [binary_arithmetic harith, int64?_eq_some_iff.mpr hk]
    rfl
  | false =>
    obtain ⟨t, hbinary, htruth⟩ := binary_truth hop harith a b
    rw [hbinary, ofBool_eq_int (hk.trans htruth)]

theorem unary_exact {op : UnaryOp} (hk : k.toInt = op.exact a.toInt) :
    unary op (int a) = .ok (int k) := by
  cases op with
  | plus => rw [Int64.toInt_inj.mp hk]; rfl
  | minus =>
    have hmul : k.toInt = BinaryOp.mul.exact a.toInt (-1 : Int64).toInt := by
      rw [hk]
      exact (mul_neg_one a.toInt).symm
    exact binary_exact rfl hmul
  | not =>
    have ht : k.toInt = truth (!(int a).isTrue) := by
      rw [hk, isTrue_int]
      simp [UnaryOp.exact]
    exact congrArg Except.ok (ofBool_eq_int ht)

end Datum

end Minibasic

import Minibasic.Decimal.Style

/-!
Numbers: 64-bit integers that give way to floats where a result leaves their range.
-/

namespace Minibasic

inductive Number where
  | int (n : Int64)
  | float (x : Float)
deriving DecidableEq, Inhabited

/-- The 64-bit integer equal to `n`, if `n` is in range. -/
def int64? (n : Int) : Option Int64 :=
  if Int64.minValue.toInt ≤ n ∧ n ≤ Int64.maxValue.toInt then some (.ofInt n) else none

theorem int64?_eq_some_iff {n : Int} {m : Int64} : int64? n = some m ↔ m.toInt = n := by
  unfold int64?
  split
  next h =>
    have hl : Int64.minValue.toInt = -9223372036854775808 := rfl
    have hu : Int64.maxValue.toInt = 9223372036854775807 := rfl
    have hn : (Int64.ofInt n).toInt = n :=
      Int64.toInt_ofInt_of_le (by simp; omega) (by simp; omega)
    rw [Option.some.injEq, ← Int64.toInt_inj, hn]
    exact eq_comm
  next h =>
    have hl := Int64.minValue_le_toInt m
    have hu := Int64.toInt_le m
    simp only [reduceCtorEq, false_iff]
    intro e
    exact h ⟨e ▸ hl, e ▸ hu⟩

namespace Number

def toFloat : Number → Float
  | int n => .ofInt n.toInt
  | float x => x

def isZero : Number → Bool
  | int n => n == 0
  | float x => x == 0

/-- The number as a 64-bit integer. A float counts if it has no fraction and is in range, but not
if it is the least integer. -/
def toInt64? : Number → Option Int64
  | int n => some n
  | float x =>
    match FloatForm.ofFloat x with
    | .finite b => b.toInt?.bind fun n => if n = Int64.minValue.toInt then none else int64? n
    | _ => none

def text : Number → List Char
  | int n => Decimal.ofInt n.toInt
  | float x => Decimal.Style.plain.float x

/-- An operation done exactly if both operands and the result are 64-bit integers, and on floats
otherwise. -/
def combine (exact : Int → Int → Int) (rounded : Float → Float → Float) : Number → Number → Number
  | int m, int n =>
    match int64? (exact m.toInt n.toInt) with
    | some k => int k
    | none => float (rounded (toFloat (int m)) (toFloat (int n)))
  | a, b => float (rounded a.toFloat b.toFloat)

def add : Number → Number → Number := combine (· + ·) (· + ·)

def sub : Number → Number → Number := combine (· - ·) (· - ·)

def mul : Number → Number → Number := combine (· * ·) (· * ·)

/-- A quotient is a float, whatever the operands. -/
def div (a b : Number) : Number := float (a.toFloat / b.toFloat)

/-- `base ^ exponent`, if it is in range. From the exponent 64 on only powers of 0, 1 and -1 are in
range, and they depend on no more than the parity of the exponent. -/
def intPow? (base : Int64) (exponent : Nat) : Option Int64 :=
  if exponent < 64 then int64? (base.toInt.pow exponent)
  else if base.toInt.natAbs ≤ 1 then int64? (base.toInt.pow (2 + exponent % 2))
  else none

/-- The greatest exponent of an exact power, all ones in thirty-two bits. -/
def maxExponent : Int64 := 0xffffffff

/-- A power of integers is exact if the exponent is not negative and not beyond the greatest, and
the result in range. -/
def pow : Number → Number → Number
  | int m, int n =>
    let rounded := float ((toFloat (int m)).pow (toFloat (int n)))
    if 0 ≤ n ∧ n ≤ maxExponent then
      match intPow? m n.toInt.toNat with
      | some k => int k
      | none => rounded
    else rounded
  | a, b => float (a.toFloat.pow b.toFloat)

/-- Two integers compare exactly and other numbers as floats; an undefined number does not compare
with any. -/
def compare? : Number → Number → Option Ordering
  | int m, int n => some (compare m n)
  | a, b =>
    let x := a.toFloat
    let y := b.toFloat
    if x < y then some .lt
    else if x == y then some .eq
    else if y < x then some .gt
    else none

end Number

end Minibasic

import Minibasic.Diagnostic
import Minibasic.Value

/-!
What the operators do with data. No operand is ever converted to another type; an operator fails
on operands that it is not made for.
-/

namespace Minibasic.Datum

/-- The longest string that a repetition makes, in bytes. -/
def maxRepeated : Nat := 0x10000000

/-- The failure of `op` on operands of these types. -/
def illegal (op : BinaryOp) (a b : Datum) : Except Cause Datum :=
  .error (.illegalOperation (a.typeName ++ " " ++ op.text ++ " " ++ b.typeName))

/-- An operator on two numbers that always succeeds. -/
def onNumbers (op : BinaryOp) (f : Number → Number → Number) (a b : Datum) : Except Cause Datum :=
  match a, b with
  | number m, number n => .ok (number (f m n))
  | _, _ => illegal op a b

/-- A comparison of two numbers, decided by their order if they have one. -/
def onOrder (op : BinaryOp) (test : Option Ordering → Bool) (a b : Datum) : Except Cause Datum :=
  match a, b with
  | number m, number n => .ok (ofBool (test (m.compare? n)))
  | _, _ => illegal op a b

def add (a b : Datum) : Except Cause Datum :=
  match a, b with
  | string s, string t => .ok (string (s ++ t))
  | _, _ => onNumbers .add Number.add a b

/-- `n` copies of a string, one after the other. -/
def copies (n : Nat) (s : String) : String :=
  if s.isEmpty then s else String.join (List.replicate n s)

/-- A string `n` times, and no time if `n` is negative. -/
def replicate (s : String) (n : Int64) : Except Cause Datum :=
  let count := n.toInt.toNat
  if s.utf8ByteSize * count ≤ maxRepeated then .ok (string (copies count s))
  else .error (.illegalOperation
    ("repeated string would exceed " ++ toString maxRepeated ++ " bytes"))

def mul (a b : Datum) : Except Cause Datum :=
  match a, b with
  | string s, number (.int n) => replicate s n
  | _, _ => onNumbers .mul Number.mul a b

def div (a b : Datum) : Except Cause Datum :=
  match a, b with
  | number m, number n => if n.isZero then .error .divisionByZero else .ok (number (m.div n))
  | _, _ => illegal .div a b

def eq (a b : Datum) : Except Cause Datum :=
  match a, b with
  | string s, string t => .ok (ofBool (s == t))
  | _, _ => onOrder .eq (· == some .eq) a b

def ne (a b : Datum) : Except Cause Datum :=
  match a, b with
  | string s, string t => .ok (ofBool (s != t))
  | _, _ => onOrder .ne (· != some .eq) a b

/-- A connective on any operands but functions. -/
def logical (op : BinaryOp) (f : Bool → Bool → Bool) (a b : Datum) : Except Cause Datum :=
  match a, b with
  | function _, _ | _, function _ => illegal op a b
  | _, _ => .ok (ofBool (f a.isTrue b.isTrue))

/-- The result of a binary operator. -/
def binary : BinaryOp → Datum → Datum → Except Cause Datum
  | .add => add
  | .sub => onNumbers .sub Number.sub
  | .mul => mul
  | .div => div
  | .pow => onNumbers .pow Number.pow
  | .eq => eq
  | .ne => ne
  | .lt => onOrder .lt (· == some .lt)
  | .le => onOrder .le fun o => o == some .lt || o == some .eq
  | .gt => onOrder .gt (· == some .gt)
  | .ge => onOrder .ge fun o => o == some .gt || o == some .eq
  | .and => logical .and (· && ·)
  | .or => logical .or (· || ·)

def not : Datum → Except Cause Datum
  | function _ => .error (.illegalOperation "NOT function")
  | d => .ok (ofBool (!d.isTrue))

/-- The result of a unary operator. Plus takes any operand as it is, and minus multiplies by
minus one. -/
def unary : UnaryOp → Datum → Except Cause Datum
  | .plus => .ok
  | .minus => fun d => mul d (int (-1))
  | .not => not

end Minibasic.Datum

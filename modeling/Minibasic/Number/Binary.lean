/-!
Finite floats as exact numbers: a sign and `mantissa * 2 ^ exponent`.
-/

namespace Minibasic

/-- A number `mantissa * 2 ^ exponent`, negated if `negative`. -/
structure Binary where
  negative : Bool
  mantissa : Nat
  exponent : Int
deriving DecidableEq

namespace Binary

/-- The bit of a mantissa that is set in all but the smallest floats. -/
def leadingBit : Nat := 0x10000000000000

/-- The exponent of the smallest floats. -/
def leastExponent : Int := -1074

/-- The finite float with the given bits: one of sign, eleven of exponent, fifty-two of fraction.
At exponent zero the leading bit of the mantissa is not set, and the unit stays the least one. -/
def ofBits (bits : Nat) : Binary :=
  let exponent := bits / leadingBit % 0x800
  let fraction := bits % leadingBit
  ⟨bits / leadingBit / 0x800 = 1,
    if exponent = 0 then fraction else leadingBit + fraction,
    if exponent = 0 then leastExponent else leastExponent + (exponent - 1 : Nat)⟩

/-- The number as an integer, if it is one. -/
def toInt? (b : Binary) : Option Int :=
  let unit := Nat.pow 2 (-b.exponent).toNat
  if b.mantissa % unit = 0 then
    let n : Int := (b.mantissa / unit * Nat.pow 2 b.exponent.toNat : Nat)
    some (if b.negative then -n else n)
  else none

end Binary

/-- What a float stands for. -/
inductive FloatForm where
  | nan
  | infinite (negative : Bool)
  | finite (b : Binary)
deriving DecidableEq

def FloatForm.ofFloat (x : Float) : FloatForm :=
  if x.isNaN then .nan
  else if x.isInf then .infinite (x < 0)
  else .finite (.ofBits x.toBits.toNat)

end Minibasic

import Minibasic.Decimal.Digits

/-!
The shortest decimal that tells a number apart from its neighbours. A number is given together
with the interval of those that round to it; of the decimals with the fewest digits inside, the
nearest is taken.
-/

namespace Minibasic.Decimal

/-- The numbers between `low / scale` and `high / scale` that round to `value / scale`, the ends
among them if `closed`. -/
structure Rounding where
  value : Nat
  low : Nat
  high : Nat
  scale : Nat
  closed : Bool

namespace Rounding

/-- The interval around `mantissa * 2 ^ exponent`: half a unit to either side, but a quarter of a
unit downwards if the neighbour below is `narrow`, that is, at half the distance. The ends belong
to an even mantissa. -/
def ofBinary (mantissa : Nat) (exponent : Int) (narrow : Bool) : Rounding :=
  let up := Nat.pow 2 exponent.toNat
  ⟨4 * mantissa * up, (4 * mantissa - if narrow then 1 else 2) * up, (4 * mantissa + 2) * up,
    4 * Nat.pow 2 (-exponent).toNat, mantissa % 2 = 0⟩

/-- `n * 10 ^ exponent` lies in the interval. -/
def holds (r : Rounding) (exponent : Int) (n : Nat) : Bool :=
  let point := n * Nat.pow 10 exponent.toNat * r.scale
  let low := r.low * Nat.pow 10 (-exponent).toNat
  let high := r.high * Nat.pow 10 (-exponent).toNat
  if r.closed then low ≤ point && point ≤ high else low < point && point < high

/-- The multiple of `10 ^ exponent` in the interval that is nearest to the value; of two as near,
the larger if `tieUp`. Only the two multiples around the value can be the nearest. -/
def nearest (r : Rounding) (tieUp : Bool) (exponent : Int) : Option Nat :=
  let value := r.value * Nat.pow 10 (-exponent).toNat
  let unit := r.scale * Nat.pow 10 exponent.toNat
  let below := value / unit
  let twice := 2 * (value % unit)
  let upFirst := unit < twice || (unit = twice && tieUp)
  let (first, second) := if upFirst then (below + 1, below) else (below, below + 1)
  if r.holds exponent first then some first
  else if r.holds exponent second then some second
  else none

/-- The number of digits of the value before the decimal point; for a value below a tenth, minus
the number of zeros after the point. -/
def magnitude (r : Rounding) : Int :=
  let shift := (digits r.scale).length
  ((digits (r.value * Nat.pow 10 shift / r.scale)).length : Int) - shift

end Rounding

/-- The number `0.d₁d₂… * 10 ^ point` with the decimal digits `d₁`, `d₂`, …. -/
structure Scientific where
  digits : List Char
  point : Int
deriving DecidableEq

/-- A number without the zeros at the end of its digits. -/
def Scientific.ofNat (n : Nat) (exponent : Int) : Scientific :=
  let ds := Decimal.digits n
  ⟨(ds.reverse.dropWhile (· = '0')).reverse, exponent + ds.length⟩

/-- The shortest decimal in the interval of a positive number, tried with one digit, with two and
so on. Seventeen digits tell any two floats apart. -/
def shortest (r : Rounding) (tieUp : Bool) : Scientific :=
  let tries := (List.range 17).map fun n : Nat => r.magnitude - (n + 1 : Int)
  let found := tries.findSome? fun e => (r.nearest tieUp e).map fun n => Scientific.ofNat n e
  found.getD (.ofNat (r.value / r.scale) 0)

end Minibasic.Decimal

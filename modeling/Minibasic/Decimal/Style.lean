import Minibasic.Decimal.Shortest
import Minibasic.Number.Binary

/-!
The text of a float: which numbers are written with all their places and which with a power of
ten, and how zeros, infinities and undefined results are spelled.
-/

namespace Minibasic.Decimal

/-- The choices that a text of floats makes. -/
structure Style where
  /-- The least and the greatest place of the point that is written positionally. -/
  leastPoint : Int
  greatestPoint : Int
  /-- What stands before the power of ten. -/
  mark : List Char
  /-- Of two decimals equally near, the larger is written. -/
  tieUp : Bool
  infinity : List Char
  undefined : List Char

/-- Positional from 0.0001 up to 10 ^ 16, with a digit on both sides of the point; `1.5e-7` beyond;
ties away from zero. -/
def Style.plain : Style where
  leastPoint := -3
  greatestPoint := 16
  mark := ['e']
  tieUp := true
  infinity := ['i', 'n', 'f']
  undefined := ['N', 'a', 'N']

namespace Scientific

/-- All places around the point, at least one on either side. -/
def positional (s : Scientific) : List Char :=
  if s.point ≤ 0 then
    ['0', '.'] ++ List.replicate (-s.point).toNat '0' ++ s.digits
  else
    let n := s.point.toNat
    let whole := s.digits.take n
    let fraction := s.digits.drop n
    whole ++ List.replicate (n - s.digits.length) '0' ++ '.' ::
      (if fraction.isEmpty then ['0'] else fraction)

/-- One digit before the point, no point if there is no other digit, and a power of ten. -/
def exponential (s : Scientific) (mark : List Char) : List Char :=
  let fraction := s.digits.drop 1
  s.digits.take 1 ++ (if fraction.isEmpty then [] else '.' :: fraction) ++ mark ++
    ofInt (s.point - 1)

end Scientific

namespace Style

/-- The text of a positive number. -/
def scientific (style : Style) (s : Scientific) : List Char :=
  if style.leastPoint ≤ s.point ∧ s.point ≤ style.greatestPoint then s.positional
  else s.exponential style.mark

/-- The text of a finite float. Zero keeps its sign. -/
def binary (style : Style) (b : Binary) : List Char :=
  let sign := if b.negative then ['-'] else []
  if b.mantissa = 0 then sign ++ ['0', '.', '0']
  else
    let narrow := b.mantissa = Binary.leadingBit ∧ Binary.leastExponent < b.exponent
    sign ++ style.scientific (shortest (.ofBinary b.mantissa b.exponent narrow) style.tieUp)

def float (style : Style) (x : Float) : List Char :=
  match FloatForm.ofFloat x with
  | .nan => style.undefined
  | .infinite negative => (if negative then ['-'] else []) ++ style.infinity
  | .finite b => style.binary b

end Style

end Minibasic.Decimal

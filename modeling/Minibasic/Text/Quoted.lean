import Minibasic.Decimal.Digits
import Minibasic.Text.Printable

/-!
Texts between double quotes, with escapes for what would not show: the form in which values are
echoed and trees and tokens are printed.
-/

namespace Minibasic.Text

/-- A digit of base sixteen, in lower case. -/
def hexDigit (d : Nat) : Char :=
  if d < 10 then Decimal.digitChar d else Char.ofNat ('a'.toNat + (d - 10))

/-- The digits of `n` in base sixteen, without leading zeros. -/
def hexDigits (n : Nat) : List Char :=
  if n < 16 then [hexDigit n] else hexDigits (n / 16) ++ [hexDigit (n % 16)]

/-- The code point of a character in base sixteen, in braces. -/
def escapeCode (c : Char) : List Char :=
  ['\\', 'u', '\x7b'] ++ hexDigits c.toNat ++ ['\x7d']

/-- How one character stands in a quoted text. -/
def escape (c : Char) : List Char :=
  match c with
  | '"' => ['\\', '"']
  | '\\' => ['\\', '\\']
  | '\n' => ['\\', 'n']
  | '\r' => ['\\', 'r']
  | '\t' => ['\\', 't']
  | '\x00' => ['\\', '0']
  | c => if isPrintable c && !extendsCluster c then [c] else escapeCode c

def quote (cs : List Char) : List Char :=
  '"' :: cs.flatMap escape ++ ['"']

end Minibasic.Text

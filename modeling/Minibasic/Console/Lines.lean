import Minibasic.Console
import Minibasic.Text.Blank

/-!
Bytes as lines of input. A line goes up to and with a line feed, or up to the end of the bytes, and
is read as UTF-8 on its own.
-/

namespace Minibasic

/-- The bytes cut after every line feed. -/
def byteLines : List UInt8 → List (List UInt8)
  | [] => []
  | b :: bs =>
    if b = 0x0a then [b] :: byteLines bs
    else match byteLines bs with
      | [] => [[b]]
      | l :: ls => (b :: l) :: ls

/-- Carriage returns and line feeds end a line. -/
def isLineEnd (c : Char) : Bool := c = '\r' || c = '\n'

namespace InputLine

/-- A text as a line: all carriage returns and line feeds behind it are its ending. -/
def ofString (s : String) : InputLine :=
  let cs := s.toList
  let content := Text.trimEnd isLineEnd cs
  .text (String.ofList content) (String.ofList (cs.drop content.length))

def ofBytes (bs : List UInt8) : InputLine :=
  match String.fromUTF8? ⟨bs.toArray⟩ with
  | some s => ofString s
  | none => undecodable

end InputLine

def inputLines (bs : ByteArray) : List InputLine :=
  (byteLines bs.data.toList).map InputLine.ofBytes

end Minibasic

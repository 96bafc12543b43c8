/-!
Where a program reads lines from and writes lines to.
-/

namespace Minibasic

/-- A line of input: its content and the characters that end it, or bytes that are no text. -/
inductive InputLine where
  | text (content ending : String)
  | undecodable
deriving DecidableEq

/-- The lines still to be read and those written so far. -/
structure Console where
  input : List InputLine
  output : Array String

namespace Console

def write (c : Console) (line : String) : Console := { c with output := c.output.push line }

/-- Takes one line. A line that is no text is taken too, but gives none. -/
def read (c : Console) : Option String × Console :=
  match c.input with
  | [] => (none, c)
  | .text content _ :: rest => (some content, { c with input := rest })
  | .undecodable :: rest => (none, { c with input := rest })

end Console

end Minibasic

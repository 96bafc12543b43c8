import Minibasic.Source

/-!
The chain of calls in progress, which tracebacks are written from.
-/

namespace Minibasic

/-- A frame and those below it: the program itself, or a call of `name` that `caller` entered at
`entry`. -/
inductive Context where
  | root (name : String)
  | call (name : String) (entry : Position) (caller : Context)
deriving DecidableEq, Inhabited

namespace Context

def name : Context → String
  | root n => n
  | call n _ _ => n

def entry? : Context → Option Position
  | root _ => none
  | call _ p _ => some p

def caller? : Context → Option Context
  | root _ => none
  | call _ _ c => some c

/-- This frame and all it was reached through, innermost first. -/
def frames : Context → List Context
  | root n => [root n]
  | call n p c => call n p c :: c.frames

def depth : Context → Nat
  | root _ => 1
  | call _ _ c => c.depth + 1

/-- The name of every frame, innermost first, with the place that it had reached: `reached` for
the innermost, and for every other the entry of the frame above it. -/
def trace (reached : Position) : Context → List (Position × String)
  | root n => [(reached, n)]
  | call n p c => (reached, n) :: c.trace p

end Context

end Minibasic

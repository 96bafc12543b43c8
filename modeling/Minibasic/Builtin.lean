import Minibasic.Console
import Minibasic.Diagnostic
import Minibasic.Store
import Minibasic.Text.Blank

/-!
What the built-in functions do, and the scope that binds them for every program.
-/

namespace Minibasic

/-- The integer that a line holds between white space, if it is in range. -/
def readInt64? (line : String) : Option Int64 :=
  (Decimal.toInt? (Text.trim line.toList)).bind int64?

/-- What is written when a line holds no integer. -/
def repromptText (line : String) : String :=
  "'" ++ line ++ "' must be an integer. Try again!"

/-- Takes lines up to the first that holds an integer, and writes a line for each other one. -/
def readInteger (output : Array String) : List InputLine → Except Cause Int64 × Console
  | [] => (.error .inputUnavailable, ⟨[], output⟩)
  | .undecodable :: rest => (.error .inputUnavailable, ⟨rest, output⟩)
  | .text line _ :: rest =>
    match readInt64? line with
    | some n => (.ok n, ⟨rest, output⟩)
    | none => readInteger (output.push (repromptText line)) rest

namespace Builtin

/-- The argument of a built-in function, among the names it can see. -/
def argument (lookup : String → Option Datum) : Except Cause Datum :=
  match lookup argumentName with
  | some d => .ok d
  | none => .error (.notDefined argumentName)

/-- Runs a built-in function that sees the names bound by `lookup`. -/
def run (b : Builtin) (lookup : String → Option Datum) (c : Console) :
    Except Cause Datum × Console :=
  match b with
  | print =>
    match argument lookup with
    | .ok d => (.ok .null, c.write d.text)
    | .error cause => (.error cause, c)
  | printReturn => ((argument lookup).map fun d => .string d.text, c)
  | input =>
    match c.read with
    | (some line, c) => (.ok (.string line), c)
    | (none, c) => (.error .inputUnavailable, c)
  | inputInt =>
    match readInteger c.output c.input with
    | (.ok n, c) => (.ok (.int n), c)
    | (.error cause, c) => (.error cause, c)

end Builtin

/-- The names that every program can see: three constants and the built-in functions. -/
def predefined : List (String × Value) :=
  [("null", { datum := .null }), ("True", { datum := .int 1 }), ("False", { datum := .int 0 })] ++
    Builtin.all.map fun b => (b.name, { datum := .function (.builtin b) })

namespace Store

/-- An environment of one new scope. -/
def newRoot (s : Store) : Environment × Store := (⟨s.fresh, []⟩, s.grow)

/-- An environment with one new scope inside `e`. -/
def newChild (s : Store) (e : Environment) : Environment × Store := (e.child s.fresh, s.grow)

/-- An environment of one new scope with the predefined names. -/
def newGlobal (s : Store) : Environment × Store :=
  let (e, s) := s.newRoot
  (e, predefined.foldl (fun s b => s.define e.scope b.1 b.2) s)

end Store

end Minibasic

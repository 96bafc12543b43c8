import Minibasic.Command.Arguments
import Minibasic.Diagnostic.Render
import Minibasic.Expr.Printer
import Minibasic.Interpreter

/-!
What the command line says about one source, and the exit status that follows from it.
-/

namespace Minibasic.Command

/-- Lines for standard output, and a failure for standard error. -/
structure Report where
  lines : List String
  failure : Option Diagnostic := none

namespace Report

def ofResult (r : Except Diagnostic String) : Report :=
  match r with
  | .ok line => { lines := [line] }
  | .error d => { lines := [], failure := some d }

def stdout (r : Report) : String := String.join (r.lines.map (· ++ "\n"))

def stderr (r : Report) : String :=
  match r.failure with
  | some d => d.render ++ "\n"
  | none => ""

end Report

/-- Programs that cannot be read are told apart from those that fail when they run. -/
def failureStatus : Stage → UInt32
  | .scanning | .parsing => 65
  | .evaluation => 70

def Report.status (r : Report) : UInt32 :=
  match r.failure with
  | some d => failureStatus d.stage
  | none => 0

/-- The lines that a run has written, and its value if `echo` asks for it. -/
def runReport (echo : Bool) (r : Except Diagnostic Value) (written : List String) : Report :=
  match r with
  | .ok v => { lines := if echo then written ++ [v.datum.echo] else written }
  | .error d => { lines := written, failure := some d }

/-- Deals with one source. What a run writes is taken out of the interpreter's console. -/
def process (mode : Mode) (echo : Bool) (i : Interpreter) (s : Source) :
    Option (Report × Interpreter) :=
  match mode with
  | .run =>
    match i.run s with
    | some (r, i) =>
      some (runReport echo r i.console.output.toList,
        { i with console := { i.console with output := #[] } })
    | none => none
  | .tokens => some (.ofResult ((Scan.tokens s).map Token.listText), i)
  | .tree => some (.ofResult ((Scan.tokens s >>= parse).map Expr.text), i)

end Minibasic.Command

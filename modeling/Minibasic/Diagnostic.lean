import Minibasic.Context

/-!
Failures. A cause belongs to one stage of a run and has one message; a diagnostic adds where it
arose and, at run time, the calls in progress.
-/

namespace Minibasic

inductive Stage where
  | scanning
  | parsing
  | evaluation
deriving DecidableEq

def Stage.text : Stage → String
  | scanning => "Lex Error"
  | parsing => "Invalid Syntax"
  | evaluation => "Runtime Error"

inductive Cause where
  | illegalCharacter (c : Char)
  | expectedCharacter (what : String)
  | unterminatedString
  | invalidSyntax (expected : String)
  | notDefined (name : String)
  | illegalOperation (what : String)
  | divisionByZero
  | arityMismatch (name : String) (expected received : Nat)
  | invalidLoopBound (what : String)
  | inputUnavailable
deriving DecidableEq

namespace Cause

def stage : Cause → Stage
  | illegalCharacter _ | expectedCharacter _ | unterminatedString => .scanning
  | invalidSyntax _ => .parsing
  | notDefined _ | illegalOperation _ | divisionByZero | arityMismatch _ _ _
  | invalidLoopBound _ | inputUnavailable => .evaluation

def message : Cause → String
  | illegalCharacter c => "Illegal Character '" ++ c.toString ++ "'"
  | expectedCharacter what => "Expected Character " ++ what
  | unterminatedString => "Unterminated string literal"
  | invalidSyntax expected => expected
  | notDefined name => "'" ++ name ++ "' is not defined"
  | illegalOperation what => "Illegal operation: " ++ what
  | divisionByZero => "Division by zero"
  | arityMismatch name expected received =>
    "'" ++ name ++ "' expected " ++ toString expected ++ " argument(s) but received " ++
      toString received
  | invalidLoopBound what => "Invalid loop bound: " ++ what
  | inputUnavailable => "No more input available"

end Cause

/-- A cause, the text to blame and, for a failure of evaluation, the innermost call. -/
structure Diagnostic where
  cause : Cause
  span : Span
  context : Option Context := none
deriving DecidableEq

namespace Diagnostic

def stage (d : Diagnostic) : Stage := d.cause.stage

/-- The stage and the message, on one line. -/
def headline (d : Diagnostic) : String :=
  d.stage.text ++ ": " ++ d.cause.message

/-- The headline, and below it the start of the text to blame. -/
def brief (d : Diagnostic) : String :=
  d.headline ++ "\n" ++ d.span.start.text

end Diagnostic

end Minibasic

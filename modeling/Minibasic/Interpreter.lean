import Minibasic.Builtin
import Minibasic.Expr.Parser
import Minibasic.Token.Scan
import Minibasic.Value.Operators

/-!
Evaluation. An interpreter holds the environment and the call that it is in, the scopes of the
session and the console. Every step of the recursion takes fuel, and a run that has none left gives
no answer; with enough fuel the answer does not depend on how much there is.
-/

namespace Minibasic

structure Interpreter where
  environment : Environment
  context : Context
  store : Store
  console : Console

/-- A computation that may fail, and that changes the interpreter whether it fails or not. It gives
nothing if it runs out of fuel. -/
abbrev Eval (α : Type) : Type := ExceptT Diagnostic (StateT Interpreter Option) α

namespace Interpreter

/-- The name of the frame that programs start in. -/
def programName : String := "<program>"

/-- The context that programs start in. -/
def rootContext : Context := .root programName

/-- Gives no answer. -/
def outOfFuel {α : Type} : Eval α := fun _ => none

/-- Fails in the current call. -/
def fail {α : Type} (c : Cause) (s : Span) : Eval α := do
  throw { cause := c, span := s, context := some (← get).context }

/-- A datum that arises at `s` in the current call. -/
def tag (s : Span) (d : Datum) : Eval Value := do
  return { datum := d, span := some s, context := some (← get).context }

/-- The result of an operator. The second operand is to blame for a division by zero. -/
def tagResult (whole divisor : Span) : Except Cause Datum → Eval Value
  | .ok d => tag whole d
  | .error .divisionByZero => fail .divisionByZero divisor
  | .error c => fail c whole

/-- Binds a name in the innermost scope. -/
def define (name : String) (v : Value) : Eval Unit :=
  modify fun i => { i with store := i.store.define i.environment.scope name v }

def lookup (name : String) : Eval (Option Value) := do
  let i ← get
  return i.store.lookup i.environment name

/-- An environment with one new scope inside `e`, which binds `names` to `vs`. -/
def openScope (e : Environment) (names : List String) (vs : List Value) : Eval Environment :=
  modifyGet fun i =>
    let (e, store) := i.store.newChild e
    (e, { i with store := store.defineAll e.scope names vs })

/-- Runs `body` in another environment and call, and comes back to the present ones, whether it
fails or not. -/
def inFrame {α : Type} (e : Environment) (c : Context) (body : Eval α) : Eval α := fun i =>
  let environment := i.environment
  let context := i.context
  match body { i with environment := e, context := c } with
  | some (r, i) => some (r, { i with environment, context })
  | none => none

/-- Runs a built-in function in the call `c` that was made at `s`, with its argument bound in
`e`. -/
def runBuiltin (b : Builtin) (e : Environment) (c : Context) (s : Span) : Eval Value := fun i =>
  let (r, console) := b.run (fun name => (i.store.lookup e name).map Value.datum) i.console
  let result : Except Diagnostic Value :=
    match r with
    | .ok d => .ok { datum := d, context := some c }
    | .error cause => .error { cause, span := s, context := some c }
  some (result, { i with console })

/-- The bounds and the step of a counting loop. -/
inductive Bound where
  | start
  | stop
  | step
deriving DecidableEq

def Bound.text : Bound → String
  | start => "start"
  | stop => "end"
  | step => "step"

/-- The value of a bound as an integer. -/
def asBound (b : Bound) (s : Span) (v : Value) : Eval Int64 :=
  match v.datum.number?.bind Number.toInt64? with
  | some n => pure n
  | none => fail (.invalidLoopBound (b.text ++ " must be an integer, got " ++ v.datum.echo)) s

/-- A counter has not reached `stop` in the direction of `step`. -/
def within (step stop counter : Int64) : Bool :=
  (0 < step && counter < stop) || (step < 0 && stop < counter)

mutual

def eval : Nat → Expr Span → Eval Value
  | 0, _ => outOfFuel
  | fuel + 1, e =>
    match e with
    | .number m n => tag m (.number n)
    | .string m s => tag m (.string s)
    | .var m x => do
      match ← lookup x with
      | some v => return { v with span := some m }
      | none => fail (.notDefined x) m
    | .assign _ x e => do
      let v ← eval fuel e
      define x v
      return v
    | .binary m op l r => do
      let a ← eval fuel l
      let b ← eval fuel r
      tagResult m r.mark (Datum.binary op a.datum b.datum)
    | .unary m op e => do
      let a ← eval fuel e
      tagResult m m (Datum.unary op a.datum)
    | .choose m test body arms => do
      if (← eval fuel test).datum.isTrue then eval fuel body
      else evalArms fuel m arms
    | .count m x start stop step body => do
      let first ← asBound .start start.mark (← eval fuel start)
      let last ← asBound .stop stop.mark (← eval fuel stop)
      let by_ ← evalStep fuel step
      countFrom fuel m x by_ last body first
      tag m .null
    | .loop m test body => do
      repeatWhile fuel test body
      tag m .null
    | .function m x ps body => do
      let f ← tag m (.function (.closure x ps body (← get).environment))
      match x with
      | some name => define name f
      | none => pure ()
      return f
    | .call m callee args => do
      let f ← eval fuel callee
      let vs ← evalAll fuel args
      match f.datum with
      | .function f => do
        let result ← apply fuel f vs m
        tag m result.datum
      | d => fail (.illegalOperation (d.typeName ++ " is not callable")) callee.mark

/-- The arms of a choice at `m`, in order, up to the first that holds. -/
def evalArms : Nat → Span → Arms Span → Eval Value
  | 0, _, _ => outOfFuel
  | fuel + 1, m, arms =>
    match arms with
    | .done => tag m .null
    | .otherwise body => eval fuel body
    | .elif test body arms => do
      if (← eval fuel test).datum.isTrue then eval fuel body
      else evalArms fuel m arms

/-- The step of a counting loop, one if it is not written. -/
def evalStep : Nat → Option (Expr Span) → Eval Int64
  | 0, _ => outOfFuel
  | _ + 1, none => pure 1
  | fuel + 1, some e => do
    let n ← asBound .step e.mark (← eval fuel e)
    if n = 0 then fail (.invalidLoopBound "step must not be zero") e.mark
    else return n

/-- Runs the body for `counter` and the integers after it in steps of `step`, up to `stop` or to
the end of the range of integers. -/
def countFrom : Nat → Span → String → Int64 → Int64 → Expr Span → Int64 → Eval Unit
  | 0, _, _, _, _, _, _ => outOfFuel
  | fuel + 1, m, x, step, stop, body, counter =>
    if within step stop counter then do
      define x (← tag m (.int counter))
      let _ ← eval fuel body
      match int64? (counter.toInt + step.toInt) with
      | some next => countFrom fuel m x step stop body next
      | none => pure ()
    else pure ()

def repeatWhile : Nat → Expr Span → Expr Span → Eval Unit
  | 0, _, _ => outOfFuel
  | fuel + 1, test, body => do
    if (← eval fuel test).datum.isTrue then do
      let _ ← eval fuel body
      repeatWhile fuel test body
    else pure ()

/-- The values of expressions, from left to right. -/
def evalAll : Nat → List (Expr Span) → Eval (List Value)
  | 0, _ => outOfFuel
  | _ + 1, [] => return []
  | fuel + 1, e :: es => do
    let v ← eval fuel e
    let vs ← evalAll fuel es
    return v :: vs

/-- Calls `f` from `m`. The body of a closure sees its parameters and the environment that it was
made in; a built-in function sees its own parameter first. -/
def apply : Nat → Function → List Value → Span → Eval Value
  | 0, _, _, _ => outOfFuel
  | fuel + 1, f, vs, m => do
    if vs.length ≠ f.arity then fail (.arityMismatch f.name f.arity vs.length) m
    else
      let i ← get
      let c : Context := .call f.name m.start i.context
      match f with
      | .closure _ ps body closed => do
        let e ← openScope closed ps vs
        inFrame e c (eval fuel body)
      | .builtin b => do
        let e ← openScope i.environment b.params vs
        runBuiltin b e c m

end

/-- Scans, parses and evaluates a source. -/
def evalSource (fuel : Nat) (s : Source) : Eval Value := do
  let e ← liftM (Scan.tokens s >>= parse)
  eval fuel e

/-- More fuel than any run can use up. -/
def ampleFuel : Nat := Nat.pow 2 62

/-- Runs a source with ample fuel. -/
def run (i : Interpreter) (s : Source) : Option (Except Diagnostic Value × Interpreter) :=
  (evalSource ampleFuel s).run i

/-- An interpreter before its first program. -/
def new (environment : Environment) (store : Store) (input : List InputLine) : Interpreter where
  environment := environment
  context := rootContext
  store := store
  console := ⟨input, #[]⟩

/-- A fresh interpreter that knows the predefined names. -/
def global (input : List InputLine) : Interpreter :=
  let (e, s) := Store.empty.newGlobal
  new e s input

end Interpreter

end Minibasic

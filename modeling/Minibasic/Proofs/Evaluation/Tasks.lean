import Minibasic.Proofs.Evaluation.Calls
import Minibasic.Proofs.Evaluation.Registers

/-!
The evaluator seen as tasks that come down to other tasks, inside of more and more calls.
-/

namespace Minibasic

/-- The integer that a bound of a counting loop stands for. -/
def Value.bound? (v : Value) : Option Int64 := v.datum.number?.bind Number.toInt64?

/-- A call in progress: the function, and the mark of the expression that calls it. -/
structure Activation where
  function : Function
  mark : Span

/-- The calls, of which the first is the innermost, inside of `c`. -/
def Context.within (calls : List Activation) (c : Context) : Context :=
  calls.foldr (fun a c => .call a.function.name a.mark.start c) c

theorem Context.within_append (inner outer : List Activation) (c : Context) :
    c.within (inner ++ outer) = (c.within outer).within inner :=
  List.foldr_append

theorem Context.depth_within (calls : List Activation) (c : Context) :
    (c.within calls).depth = c.depth + calls.length := by
  induction calls with
  | nil => rfl
  | cons a calls ih => exact congrArg (· + 1) ih

namespace Interpreter

/-- A piece of work of the evaluator. -/
inductive Task where
  | eval (e : Expr Span)
  | arms (m : Span) (as : Arms Span)
  | step (s : Option (Expr Span))
  | count (m : Span) (x : String) (by_ last : Int64) (body : Expr Span) (counter : Int64)
  | loop (test body : Expr Span)
  | all (es : List (Expr Span))
  | apply (f : Function) (vs : List Value) (m : Span)

namespace Task

def Result : Task → Type
  | eval _ | arms _ _ | apply _ _ _ => Value
  | step _ => Int64
  | count _ _ _ _ _ _ | loop _ _ => Unit
  | all _ => List Value

def run (fuel : Nat) : (t : Task) → Eval t.Result
  | eval e => Interpreter.eval fuel e
  | arms m as => evalArms fuel m as
  | step s => evalStep fuel s
  | count m x by_ last body counter => countFrom fuel m x by_ last body counter
  | loop test body => repeatWhile fuel test body
  | all es => evalAll fuel es
  | apply f vs m => Interpreter.apply fuel f vs m

/-- The part that comes first, in the state in which the task starts. -/
def first? : Task → Option Task
  | eval (.assign _ _ e) | eval (.binary _ _ e _) | eval (.unary _ _ e) | eval (.choose _ e _ _)
  | eval (.count _ _ e _ _ _) | eval (.call _ e _) | arms _ (.otherwise e) | arms _ (.elif e _ _)
  | step (some e) | loop e _ | all (e :: _) => some (eval e)
  | eval (.loop _ test body) => some (loop test body)
  | _ => none

/-- What a choice evaluates if its test holds, and what if not. -/
def choice? : Task → Option (Expr Span × Expr Span × Span × Arms Span)
  | eval (.choose m test body as) | arms m (.elif test body as) => some (test, body, m, as)
  | _ => none

theorem recorded_run (fuel : Nat) (t : Task) : Recorded (t.run fuel) := by
  have h := recording fuel
  cases t with
  | eval e => exact h.eval e
  | arms m as => exact h.evalArms m as
  | step s => exact h.evalStep s
  | count m x by_ last body counter => exact h.countFrom m x by_ last body counter
  | loop test body => exact h.repeatWhile test body
  | all es => exact h.evalAll es
  | apply f vs m => exact h.apply f vs m

/-- Every task ends in the call that it has started in. -/
theorem context_of_run {fuel : Nat} {t : Task} {i j : Interpreter}
    {r : Except Diagnostic t.Result} (h : t.run fuel i = some (r, j)) : j.context = i.context :=
  (sameFrame_of_recorded (recorded_run fuel t) h).context

end Task

/-- The interpreter with the counter of a loop at `m` bound to `n`. -/
def counted (i : Interpreter) (m : Span) (x : String) (n : Int64) : Interpreter :=
  { i with store := i.store.define i.environment.scope x {
      datum := .int n, span := some m, context := some i.context } }

/-- With fuel `n` for its parts, the task `t` in the state `i` comes to `t'` in the state `j`, which
is inside of `calls` as seen from the task. -/
inductive Part (n : Nat) : Task → Interpreter → List Activation → Task → Interpreter → Prop
  | first : t.first? = some t' → Part n t i [] t' i
  | right : eval n l i = some (.ok a, j) → Part n (.eval (.binary m op l r)) i [] (.eval r) j
  | chosen : t.choice? = some (test, body, m, as) → eval n test i = some (.ok v, j) →
      v.datum.isTrue → Part n t i [] (.eval body) j
  | other : t.choice? = some (test, body, m, as) → eval n test i = some (.ok v, j) →
      ¬v.datum.isTrue → Part n t i [] (.arms m as) j
  | stop : eval n start i = some (.ok a, j) → a.bound? = some first →
      Part n (.eval (.count m x start stop step body)) i [] (.eval stop) j
  | step : eval n start i = some (.ok a, j) → a.bound? = some first →
      eval n stop j = some (.ok b, k) → b.bound? = some last →
      Part n (.eval (.count m x start stop step body)) i [] (.step step) k
  | count : eval n start i = some (.ok a, j) → a.bound? = some first →
      eval n stop j = some (.ok b, k) → b.bound? = some last →
      evalStep n step k = some (.ok by_, l) →
      Part n (.eval (.count m x start stop step body)) i [] (.count m x by_ last body first) l
  | iteration : within by_ last counter →
      Part n (.count m x by_ last body counter) i [] (.eval body) (i.counted m x counter)
  | next : within by_ last counter → eval n body (i.counted m x counter) = some (.ok v, j) →
      int64? (counter.toInt + by_.toInt) = some counter' →
      Part n (.count m x by_ last body counter) i [] (.count m x by_ last body counter') j
  | lasting : eval n test i = some (.ok v, j) → v.datum.isTrue →
      Part n (.loop test body) i [] (.eval body) j
  | again : eval n test i = some (.ok v, j) → v.datum.isTrue →
      eval n body j = some (.ok u, k) → Part n (.loop test body) i [] (.loop test body) k
  | tail : eval n e i = some (.ok v, j) → Part n (.all (e :: es)) i [] (.all es) j
  | arguments : eval n callee i = some (.ok v, j) →
      Part n (.eval (.call m callee args)) i [] (.all args) j
  | apply : eval n callee i = some (.ok v, j) → v.datum = .function f →
      evalAll n args j = some (.ok vs, k) →
      Part n (.eval (.call m callee args)) i [] (.apply f vs m) k
  | enter : vs.length = ps.length →
      Part n (.apply (.closure x ps body closed) vs m) i [⟨.closure x ps body closed, m⟩]
        (.eval body) (i.entered x ps closed vs m)

/-- With so much fuel the task in the state `i` comes to another, with its own fuel and state,
inside of the calls, of which the first is the innermost. -/
inductive Visits : Nat → Task → Interpreter → List Activation → Nat → Task → Interpreter → Prop
  | here : Visits n t i [] n t i
  | part : Part n t i calls t' j → Visits n t' j calls' k u l →
      Visits (n + 1) t i (calls' ++ calls) k u l

variable {n : Nat} {t t' : Task} {i j : Interpreter} {calls : List Activation}

theorem context_of_eval {e : Expr Span} {r : Except Diagnostic Value}
    (h : eval n e i = some (r, j)) : j.context = i.context :=
  Task.context_of_run (t := .eval e) h

/-- A part is in the calls of its task and in those that lead to it. -/
theorem Part.context (h : Part n t i calls t' j) : j.context = i.context.within calls := by
  cases h with
  | first | iteration | enter => rfl
  | right h | chosen _ h _ | other _ h _ | stop h _ | lasting h _ | tail h | arguments h =>
    exact context_of_eval h
  | step h _ h' _ | again h _ h' => exact (context_of_eval h').trans (context_of_eval h)
  | count ha _ hb _ hc =>
    have hstep := Task.context_of_run (t := .step _) hc
    exact hstep.trans ((context_of_eval hb).trans (context_of_eval ha))
  | next _ h _ => exact (context_of_eval h).trans rfl
  | apply h _ h' =>
    have hargs := Task.context_of_run (t := .all _) h'
    exact hargs.trans (context_of_eval h)

/-- On the way to a task the calls in progress are those that lead to it. -/
theorem Visits.context {fuel : Nat} (h : Visits fuel t i calls n t' j) :
    j.context = i.context.within calls := by
  induction h with
  | here => rfl
  | part h _ ih => rw [ih, h.context, Context.within_append]

end Interpreter

end Minibasic

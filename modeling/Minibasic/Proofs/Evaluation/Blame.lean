import Minibasic.Proofs.Evaluation.Faults
import Minibasic.Proofs.Evaluation.Metadata
import Minibasic.Proofs.Token.LongestMatch

/-!
What failures tell. A program that is no expression fails without a context and changes nothing; one
that fails at run time has the calls in progress to show for it, down to the program itself.
-/

namespace Minibasic

/-- The frames of a context with the places that they were entered at. -/
def Context.entries (c : Context) : List (String × Option Position) :=
  c.frames.map fun f => (f.name, f.entry?)

def Activation.entry (a : Activation) : String × Option Position :=
  (a.function.name, some a.mark.start)

theorem Context.entries_within (calls : List Activation) (c : Context) :
    (c.within calls).entries = calls.map Activation.entry ++ c.entries := by
  induction calls with
  | nil => rfl
  | cons a calls ih => exact congrArg (a.entry :: ·) ih

/-- A failure that operators have: their operands are at fault. -/
def Cause.OfOperands (c : Cause) : Prop := c = .divisionByZero ∨ ∃ what, c = .illegalOperation what

namespace Datum

variable {op : BinaryOp} {a b : Datum} {c : Cause}

theorem illegal_error (h : illegal op a b = .error c) : c.OfOperands := by
  cases h
  exact .inr ⟨_, rfl⟩

theorem onNumbers_error {f : Number → Number → Number} (h : onNumbers op f a b = .error c) :
    c.OfOperands := by
  unfold onNumbers at h
  split at h
  · cases h
  · exact illegal_error h

theorem onOrder_error {test : Option Ordering → Bool} (h : onOrder op test a b = .error c) :
    c.OfOperands := by
  unfold onOrder at h
  split at h
  · cases h
  · exact illegal_error h

theorem logical_error {f : Bool → Bool → Bool} (h : logical op f a b = .error c) :
    c.OfOperands := by
  unfold logical at h
  split at h
  · exact illegal_error h
  · exact illegal_error h
  · cases h

theorem mul_error (h : mul a b = .error c) : c.OfOperands := by
  unfold mul at h
  split at h
  · dsimp only [replicate] at h
    split at h
    · cases h
    · cases h
      exact .inr ⟨_, rfl⟩
  · exact onNumbers_error h

theorem div_error (h : div a b = .error c) : c.OfOperands := by
  unfold div at h
  split at h
  · split at h
    · cases h
      exact .inl rfl
    · cases h
  · exact illegal_error h

theorem binary_error (h : binary op a b = .error c) : c.OfOperands := by
  cases op with
  | add =>
    rw [binary] at h
    unfold add at h
    split at h
    · cases h
    · exact onNumbers_error h
  | sub | pow => exact onNumbers_error h
  | mul => exact mul_error h
  | div => exact div_error h
  | eq =>
    rw [binary] at h
    unfold eq at h
    split at h
    · cases h
    · exact onOrder_error h
  | ne =>
    rw [binary] at h
    unfold ne at h
    split at h
    · cases h
    · exact onOrder_error h
  | lt | le | gt | ge =>
    rw [binary] at h
    exact onOrder_error h
  | and | or => exact logical_error h

theorem unary_error {op : UnaryOp} (h : unary op a = .error c) : c.OfOperands := by
  cases op with
  | plus => cases h
  | minus => exact mul_error h
  | not =>
    cases a with
    | function f =>
      cases h
      exact .inr ⟨_, rfl⟩
    | number n => cases h
    | string s => cases h

end Datum

theorem readInteger_error {output : Array String} {ls : List InputLine} {c : Cause} {k : Console}
    (h : readInteger output ls = (.error c, k)) : c = .inputUnavailable := by
  induction ls generalizing output with
  | nil =>
    cases h
    rfl
  | cons l ls ih =>
    cases l with
    | undecodable =>
      cases h
      rfl
    | text line ending =>
      rw [readInteger] at h
      split at h
      · cases h
      · exact ih h

/-- With its argument at hand a built-in function fails for want of input only. -/
theorem Builtin.run_error {b : Builtin} {vs : List Value} {c : Cause} {k k' : Console}
    (hvs : vs.length = b.params.length)
    (h : b.run (fun _ => vs.head?.map Value.datum) k = (.error c, k')) : c = .inputUnavailable := by
  cases b with
  | print | printReturn =>
    obtain ⟨v, rfl⟩ := List.length_eq_one_iff.mp hvs
    cases h
  | input =>
    rw [Builtin.run] at h
    split at h <;> cases h
    rfl
  | inputInt =>
    rw [Builtin.run] at h
    split at h
    · cases h
    next hread =>
      cases h
      exact readInteger_error hread

namespace Interpreter

variable {n fuel : Nat} {t : Task} {i i' j : Interpreter} {own : List Activation} {c : Cause}
  {s : Span} {d : Diagnostic}

/-- Faults are of the stage of evaluation, and the only names that are not defined are those of
variables. -/
theorem Fault.cause (h : Fault n t i own c s) :
    c.stage = .evaluation ∧ ∀ x, c = .notDefined x → t = .eval (.var s x) := by
  have hoperands : c.OfOperands → c.stage = .evaluation ∧ ∀ x, c = .notDefined x →
      t = .eval (.var s x) := by
    intro hc
    rcases hc with rfl | ⟨what, rfl⟩
    · exact ⟨rfl, nofun⟩
    · exact ⟨rfl, nofun⟩
  cases h with
  | notDefined =>
    refine ⟨rfl, fun x hx => ?_⟩
    cases hx
    rfl
  | binary _ _ hc => exact hoperands (Datum.binary_error hc)
  | unary _ hc => exact hoperands (Datum.unary_error hc)
  | start | stop | step | zeroStep | notCallable | arity => exact ⟨rfl, nofun⟩
  | builtin hvs hrun =>
    obtain rfl := Builtin.run_error hvs hrun
    exact ⟨rfl, nofun⟩

/-- The wrong number of arguments is the fault of the caller. -/
theorem Fault.own_of_arity {f : Function} {vs : List Value} {m : Span}
    (h : Fault n (.apply f vs m) i own c s) (hvs : vs.length ≠ f.arity) : own = [] := by
  cases h with
  | arity => rfl
  | builtin hvs' => exact absurd hvs' hvs

/-- And so is a callee that is no function. -/
theorem Fault.own_of_call {m : Span} {callee : Expr Span} {args : List (Expr Span)}
    (h : Fault n (.eval (.call m callee args)) i own c s) : own = [] := by
  cases h
  rfl

theorem Fault.own_of_var {m : Span} {x : String} (h : Fault n (.eval (.var m x)) i own c s) :
    own = [] := by
  cases h
  rfl

/-- A built-in function that has its arguments fails in a call of its own. -/
theorem Fault.own_of_builtin {b : Builtin} {vs : List Value} {m : Span}
    (h : Fault n (.apply (.builtin b) vs m) i own c s) (hvs : vs.length = b.params.length) :
    own = [⟨.builtin b, m⟩] := by
  cases h with
  | arity hvs' => exact absurd hvs hvs'
  | builtin => rfl

/-- A text that is not made up of tokens fails before evaluation. -/
theorem scanning_error {src : Source} (h : Scan.tokens src = .error d) :
    d.stage = .scanning ∧ d.context = none := by
  obtain ⟨read, c, rest, -, -, rfl, -⟩ := ((Scan.tokens_eq_iff src _).mp h).exists_stuck d rfl
  refine ⟨?_, rfl⟩
  change (Scan.faultCause c).stage = .scanning
  unfold Scan.faultCause
  split <;> rfl

/-- And so do tokens that are no expression. -/
theorem parsing_error {ts : List Token} (h : parse ts = .error d) :
    d.stage = .parsing ∧ d.context = none := by
  unfold parse at h
  split at h
  · cases h
  · cases h
    exact ⟨rfl, rfl⟩
  · cases h
    exact ⟨rfl, rfl⟩

/-- The evaluation of `e` from the state `i` fails with `d`, which tells of a fault in the task `t`
and of no other. The calls that lead to the task are in progress, the first of them innermost, and a
call of its own if it has one. -/
structure Meets (fuel : Nat) (e : Expr Span) (i : Interpreter) (d : Diagnostic)
    (calls own : List Activation) (t : Task) : Prop where
  fault : ∃ n j, Visits fuel (.eval e) i calls (n + 1) t j ∧ Fault n t j own d.cause d.span
  only : ∀ calls own n t j c s, Visits fuel (.eval e) i calls (n + 1) t j → Fault n t j own c s →
    d = ⟨c, s, some (i.context.within (own ++ calls))⟩
  context : d.context = some (i.context.within (own ++ calls))
  arity : ∀ f vs m, t = .apply f vs m → vs.length ≠ f.arity → own = []
  callee : ∀ m callee args, t = .eval (.call m callee args) → own = []
  builtin : ∀ b vs m, t = .apply (.builtin b) vs m → vs.length = b.params.length →
    own = [⟨.builtin b, m⟩]
  notDefined : ∀ x, d.cause = .notDefined x → t = .eval (.var d.span x)

theorem Stops.unique {α : Type} {m : Eval α} {d' : Diagnostic} (h : Stops m i d)
    (h' : Stops m i d') : d = d' := by
  obtain ⟨j, hj⟩ := h
  obtain ⟨j', hj'⟩ := h'
  rw [hj] at hj'
  cases hj'
  rfl

theorem meets_of_eval {e : Expr Span} (h : eval fuel e i = some (.error d, i')) :
    d.stage = .evaluation ∧ ∃ calls own t, Meets fuel e i d calls own t := by
  have hstops : Stops ((Task.eval e).run fuel) i d := ⟨i', h⟩
  obtain ⟨calls, n, t, j, own, hvisits, hfault, hcontext⟩ := stops_iff_visits.mp hstops
  refine ⟨hfault.cause.1, calls, own, t, ⟨n, j, hvisits, hfault⟩, ?_, hcontext, ?_, ?_, ?_,
    hfault.cause.2⟩
  · intro calls' own' n' u k c s hv hf
    exact hstops.unique (stops_iff_visits.mpr ⟨calls', n', u, k, own', hv, hf, rfl⟩)
  · intro f vs m ht
    subst ht
    exact hfault.own_of_arity
  · intro m callee args ht
    subst ht
    exact hfault.own_of_call
  · intro b vs m ht
    subst ht
    exact hfault.own_of_builtin

/-- A built-in function never misses its argument. -/
theorem builtin_defined {b : Builtin} {vs : List Value} {m : Span}
    (h : apply fuel (.builtin b) vs m i = some (.error d, i')) (x : String) :
    d.cause ≠ .notDefined x := by
  have hstops : Stops ((Task.apply (.builtin b) vs m).run fuel) i d := ⟨i', h⟩
  cases fuel with
  | zero => exact absurd hstops not_stops_zero
  | succ fuel =>
    intro hx
    cases stops_iff_origin.mp hstops with
    | fault hfault => cases hfault.cause.2 x hx
    | part hpart => cases hpart with
      | first ht => cases ht
      | chosen ht => cases ht
      | other ht => cases ht

theorem evalSource_of_error {src : Source} (h : Scan.tokens src = .error d) (fuel : Nat)
    (i : Interpreter) : evalSource fuel src i = some (.error d, i) := by
  have hlift : (liftM (Scan.tokens src >>= parse) : Eval Parser.Node) i = some (.error d, i) := by
    rw [h]
    rfl
  rw [evalSource, bind_apply, hlift]

/-- A program fails before its evaluation or in it. -/
theorem evalSource_error {src : Source} (h : evalSource fuel src i = some (.error d, i')) :
    (d.stage ≠ .evaluation ∧ d.context = none ∧ i' = i) ∨
      d.stage = .evaluation ∧ ∃ ts e calls own t, Scan.tokens src = .ok ts ∧ parse ts = .ok e ∧
        Meets fuel e i d calls own t := by
  cases htokens : Scan.tokens src with
  | error d' =>
    rw [evalSource_of_error htokens] at h
    cases h
    obtain ⟨hstage, hcontext⟩ := scanning_error htokens
    exact .inl ⟨by rw [hstage]; decide, hcontext, rfl⟩
  | ok ts =>
    rw [evalSource_of_tokens fuel htokens] at h
    cases hparse : parse ts with
    | error d' =>
      rw [hparse] at h
      cases h
      obtain ⟨hstage, hcontext⟩ := parsing_error hparse
      exact .inl ⟨by rw [hstage]; decide, hcontext, rfl⟩
    | ok e =>
      rw [hparse] at h
      obtain ⟨hstage, calls, own, t, hmeets⟩ := meets_of_eval h
      exact .inr ⟨hstage, ts, e, calls, own, t, rfl, hparse, hmeets⟩

/-- If a program of a session fails before evaluation, then without a context, and nothing changes.
If its evaluation fails, then the context has a frame for every call in progress, innermost first,
with the name of the function and the place where it is called, and below them the program. A call
that cannot be made fails in the frame of the caller, and a built-in function in its own. The names
that are not defined are those of variables, and never that of the argument of a built-in
function. -/
theorem evalSource_failure {environment : Environment} {store : Store} {input : List InputLine}
    {h : List Effect} (hs : Session (new environment store input) h i) (console : Console)
    {src : Source} (he : evalSource fuel src { i with console } = some (.error d, i')) :
    (d.stage ≠ .evaluation → d.context = none ∧ i' = { i with console }) ∧
    (d.stage = .evaluation → ∃ ts e calls own t c, Scan.tokens src = .ok ts ∧ parse ts = .ok e ∧
      Meets fuel e { i with console } d calls own t ∧ d.context = some c ∧
      c.entries = (own ++ calls).map Activation.entry ++ [(programName, none)]) ∧
    ∀ fuel b vs m k d k' x, apply fuel (.builtin b) vs m k = some (.error d, k') →
      d.cause ≠ .notDefined x := by
  have hroot : i.context = rootContext := hs.orderly.framed.context
  refine ⟨?_, ?_, fun _ _ _ _ _ _ _ x h => builtin_defined h x⟩
  · intro hstage
    rcases evalSource_error he with ⟨-, hcontext, hi⟩ | ⟨hevaluation, -⟩
    · exact ⟨hcontext, hi⟩
    · exact absurd hevaluation hstage
  · intro hstage
    rcases evalSource_error he with ⟨hbefore, -⟩ | ⟨-, ts, e, calls, own, t, hts, hparse, hmeets⟩
    · exact absurd hstage hbefore
    · refine ⟨ts, e, calls, own, t, _, hts, hparse, hmeets, hmeets.context, ?_⟩
      rw [Context.entries_within]
      change _ ++ Context.entries i.context = _
      rw [hroot]
      rfl

/-- No input is left for the program `(FUN f(n) -> input())(2)`, which fails in a call that is made
in another one. -/
theorem evalSource_failure_input :
    ∃ d i', evalSource 9 ⟨"a", "(FUN f(n) -> input())(2)"⟩ (global []) = some (.error d, i') ∧
      d.stage = .evaluation ∧ ∃ ts e calls own t c,
        Scan.tokens ⟨"a", "(FUN f(n) -> input())(2)"⟩ = .ok ts ∧ parse ts = .ok e ∧
        Meets 9 e (global []) d calls own t ∧ d.context = some c ∧
        c.entries = (own ++ calls).map Activation.entry ++ [(programName, none)] ∧
        c.frames.map Context.name = ["input", "f", "<program>"] := by
  have h : (evalSource 9 ⟨"a", "(FUN f(n) -> input())(2)"⟩ (global [])).map (fun p =>
        (p.1.map fun _ => ()).mapError fun d =>
          (d.stage, d.context.map fun c => c.frames.map Context.name)) =
      some (.error (.evaluation, some ["input", "f", "<program>"])) := by decide +kernel
  have hs : Session (new (global []).environment (global []).store []) [] (global []) := .done
  obtain ⟨⟨r, i'⟩, he, hr⟩ := Option.map_eq_some_iff.mp h
  cases r with
  | ok v => cases hr
  | error d =>
    obtain ⟨hstage, hnames⟩ := Prod.mk.inj (Except.error.inj hr)
    obtain ⟨ts, e, calls, own, t, c, hts, hparse, hmeets, hc, hentries⟩ :=
      (evalSource_failure hs (global []).console he).2.1 hstage
    rw [hc] at hnames
    exact ⟨d, i', he, hstage, ts, e, calls, own, t, c, hts, hparse, hmeets, hc, hentries,
      Option.some.inj hnames⟩

end Interpreter

end Minibasic

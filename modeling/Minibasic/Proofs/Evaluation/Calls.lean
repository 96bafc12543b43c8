import Minibasic.Proofs.Evaluation.History

/-!
What a call comes down to: a refusal by the number of arguments, a body that runs in a new scope, or
a built-in function that finds its argument in one.
-/

namespace Minibasic.Interpreter

variable {vs : List Value}

/-- A call with the wrong number of arguments changes nothing. -/
theorem apply_arity {f : Function} (hvs : vs.length ≠ f.arity) (fuel : Nat) (m : Span)
    (i : Interpreter) :
    apply (fuel + 1) f vs m i =
      some (.error ⟨.arityMismatch f.name f.arity vs.length, m, some i.context⟩, i) := by
  rw [apply, if_pos hvs]
  rfl

/-- The state in which the body of a function runs. -/
def entered (i : Interpreter) (x : Option String) (ps : List String) (closed : Environment)
    (vs : List Value) (m : Span) : Interpreter :=
  { i.opened closed ps vs with context := .call (x.getD anonymousName) m.start i.context }

theorem apply_closure {ps : List String} (hvs : vs.length = ps.length) (fuel : Nat)
    (x : Option String) (body : Expr Span) (closed : Environment) (m : Span) (i : Interpreter) :
    apply (fuel + 1) (.closure x ps body closed) vs m i =
      match eval fuel body (i.entered x ps closed vs m) with
      | some (r, j) => some (r, { j with environment := i.environment, context := i.context })
      | none => none := by
  have harity : ¬vs.length ≠ (Function.closure x ps body closed).arity := not_not_intro hvs
  rw [apply, if_neg harity, bind_apply]
  let c : Context := .call (x.getD anonymousName) m.start i.context
  have hstate : { i.opened closed ps vs with context := c } = i.entered x ps closed vs m := rfl
  change (openScope closed ps vs >>= fun e => inFrame e c (eval fuel body)) i = _
  rw [openScope_inFrame, hstate]
  cases eval fuel body (i.entered x ps closed vs m) <;> rfl

/-- A name that is bound in the scope of a call is found there first. -/
theorem lookup_opened (i : Interpreter) (e : Environment) (x : String) (v : Value) :
    (i.opened e [x] [v]).store.lookup (e.child i.store.fresh) x = some v := by
  have hnew : i.store.fresh < i.store.grow.size := by
    rw [Store.size_grow]
    exact Nat.lt_succ_self _
  have hscope : ((i.opened e [x] [v]).store.scope i.store.fresh).get? x = some v := by
    change ((i.store.grow.define i.store.fresh x v).scope i.store.fresh).get? x = some v
    rw [Store.get?_define _ hnew, if_pos ⟨rfl, rfl⟩]
  rw [Store.lookup, Environment.chain_child, List.findSome?_cons, hscope]

/-- A built-in function sees its argument whatever the caller has bound. -/
theorem run_opened {b : Builtin} (hvs : vs.length = b.params.length) (i : Interpreter)
    (e : Environment) (c : Console) :
    b.run (fun x => ((i.opened e b.params vs).store.lookup (e.child i.store.fresh) x).map
      Value.datum) c = b.run (fun _ => vs.head?.map Value.datum) c := by
  cases b with
  | print | printReturn =>
    obtain ⟨v, rfl⟩ := List.length_eq_one_iff.mp hvs
    have hv := lookup_opened i e Builtin.argumentName v
    simp only [Builtin.run, Builtin.argument, Builtin.params, hv, List.head?_cons]
  | input | inputInt => rfl

/-- The result of a built-in function in the call `c` that is made at `m`. -/
def builtinResult (c : Context) (m : Span) : Except Cause Datum → Except Diagnostic Value
  | .ok d => .ok { datum := d, context := some c }
  | .error cause => .error { cause, span := m, context := some c }

theorem runBuiltin_apply (b : Builtin) (e : Environment) (c : Context) (m : Span)
    (i : Interpreter) {p : Except Cause Datum × Console}
    (hp : b.run (fun x => (i.store.lookup e x).map Value.datum) i.console = p) :
    runBuiltin b e c m i = some (builtinResult c m p.1, { i with console := p.2 }) := by
  unfold runBuiltin
  rw [hp]
  obtain ⟨r, console⟩ := p
  cases r <;> rfl

theorem apply_builtin {b : Builtin} (hvs : vs.length = b.params.length) (fuel : Nat) (m : Span)
    (i : Interpreter) {p : Except Cause Datum × Console}
    (hp : b.run (fun _ => vs.head?.map Value.datum) i.console = p) :
    apply (fuel + 1) (.builtin b) vs m i =
      some (builtinResult (.call b.name m.start i.context) m p.1,
        { i with store := (i.opened i.environment b.params vs).store, console := p.2 }) := by
  have harity : ¬vs.length ≠ (Function.builtin b).arity := not_not_intro hvs
  rw [apply, if_neg harity, bind_apply]
  change runBuiltin b (i.environment.child i.store.fresh) _ m
    { i with store := (i.opened i.environment b.params vs).store } = _
  exact runBuiltin_apply b _ _ m _ ((run_opened hvs i i.environment i.console).trans hp)

end Minibasic.Interpreter

import Minibasic.Proofs.Evaluation.Calls

/-!
Output and fuel. A run appends lines to what has been written before, and what that was makes no
difference to it; nor does more fuel.
-/

namespace Minibasic

/-- The lines that are taken, and those that are written, do not depend on what has been written
before. -/
theorem readInteger_output (ls : List InputLine) :
    ∃ r rest lines, ∀ o, readInteger o ls = (r, ⟨rest, o ++ lines⟩) := by
  induction ls with
  | nil => exact ⟨_, _, #[], fun o => by rw [Array.append_empty]; rfl⟩
  | cons l ls ih =>
    cases l with
    | undecodable => exact ⟨_, _, #[], fun o => by rw [Array.append_empty]; rfl⟩
    | text line ending =>
      cases hn : readInt64? line with
      | some n => exact ⟨.ok n, ls, #[], fun o => by rw [readInteger, hn, Array.append_empty]⟩
      | none =>
        obtain ⟨r, rest, lines, h⟩ := ih
        refine ⟨r, rest, #[repromptText line] ++ lines, fun o => ?_⟩
        rw [readInteger, hn]
        change readInteger (o.push (repromptText line)) ls = _
        rw [h, ← Array.append_assoc, Array.push_eq_append]

theorem Builtin.run_output (b : Builtin) (look : String → Option Datum)
    (input : List InputLine) :
    ∃ r rest lines, ∀ o, b.run look ⟨input, o⟩ = (r, ⟨rest, o ++ lines⟩) := by
  cases b with
  | print =>
    cases ha : argument look with
    | ok d =>
      refine ⟨.ok .null, input, #[d.text], fun o => ?_⟩
      rw [run, ha, ← Array.push_eq_append]
      rfl
    | error cause => exact ⟨.error cause, input, #[], fun o => by rw [run, ha, Array.append_empty]⟩
  | printReturn => exact ⟨_, input, #[], fun o => by rw [run, Array.append_empty]⟩
  | input =>
    cases input with
    | nil => exact ⟨_, [], #[], fun o => by rw [Array.append_empty]; rfl⟩
    | cons l ls => cases l <;> exact ⟨_, ls, #[], fun o => by rw [Array.append_empty]; rfl⟩
  | inputInt =>
    obtain ⟨r, rest, lines, h⟩ := readInteger_output input
    cases r with
    | ok n => exact ⟨.ok (.int n), rest, lines, fun o => by rw [run, h]⟩
    | error cause => exact ⟨.error cause, rest, lines, fun o => by rw [run, h]⟩

namespace Interpreter

variable {α β : Type}

/-- The interpreter with other lines in place of all that has been written. -/
def withOutput (o : Array String) (i : Interpreter) : Interpreter :=
  { i with console := { i.console with output := o } }

/-- The computation `m'` does what `m` does, as far as `m` comes to an end: it writes the same lines
after any others. -/
def Replays (m m' : Eval α) : Prop :=
  ∀ i r j, m i = some (r, j) → ∃ lines, j.console.output = i.console.output ++ lines ∧
    ∀ o, m' (i.withOutput o) = some (r, j.withOutput (o ++ lines))

namespace Replays

variable {m m' : Eval α}

theorem outOfFuel : Replays outOfFuel m' := by
  intro i r j h
  cases h

theorem bind {next next' : α → Eval β} (hm : Replays m m')
    (hn : ∀ a, Replays (next a) (next' a)) : Replays (m >>= next) (m' >>= next') := by
  intro i r j h
  rw [bind_apply] at h
  cases hmi : m i with
  | none =>
    rw [hmi] at h
    cases h
  | some p =>
    obtain ⟨rm, k⟩ := p
    obtain ⟨lines, hk, hm'⟩ := hm i rm k hmi
    rw [hmi] at h
    cases rm with
    | ok a =>
      obtain ⟨more, hj, hn'⟩ := hn a k r j h
      refine ⟨lines ++ more, by rw [hj, hk, Array.append_assoc], fun o => ?_⟩
      rw [bind_apply, hm' o, ← Array.append_assoc]
      exact hn' (o ++ lines)
    | error d =>
      cases h
      refine ⟨lines, hk, fun o => ?_⟩
      rw [bind_apply, hm' o]

/-- A computation that writes nothing and does not look at the output. -/
theorem of_silent {f : Interpreter → Except Diagnostic α × Interpreter}
    (hm : ∀ i, m i = some (f i)) (hf : ∀ i, (f i).2.console = i.console)
    (ho : ∀ i o, f (i.withOutput o) = ((f i).1, (f i).2.withOutput o)) : Replays m m := by
  intro i r j h
  have hfi : f i = (r, j) := by
    rw [hm] at h
    exact Option.some.inj h
  have hj : j.console = i.console := by rw [← hf i, hfi]
  refine ⟨#[], by rw [hj, Array.append_empty], fun o => ?_⟩
  rw [hm, ho, hfi, Array.append_empty]

theorem pure (a : α) : Replays (pure a) (pure a) :=
  of_silent (fun _ => rfl) (fun _ => rfl) fun _ _ => rfl

theorem fail (c : Cause) (s : Span) : Replays (fail c s : Eval α) (fail c s) :=
  of_silent (fun _ => rfl) (fun _ => rfl) fun _ _ => rfl

theorem tag (s : Span) (d : Datum) : Replays (tag s d) (tag s d) :=
  of_silent (fun _ => rfl) (fun _ => rfl) fun _ _ => rfl

theorem define (x : String) (v : Value) : Replays (define x v) (define x v) :=
  of_silent (fun _ => rfl) (fun _ => rfl) fun _ _ => rfl

theorem lookup (x : String) : Replays (lookup x) (lookup x) :=
  of_silent (fun _ => rfl) (fun _ => rfl) fun _ _ => rfl

theorem tagResult (s t : Span) (r : Except Cause Datum) :
    Replays (tagResult s t r) (tagResult s t r) := by
  unfold Interpreter.tagResult
  split
  · exact .tag _ _
  · exact .fail _ _
  · exact .fail _ _

theorem asBound (b : Bound) (s : Span) (v : Value) :
    Replays (asBound b s v) (asBound b s v) := by
  unfold Interpreter.asBound
  split
  · exact .pure _
  · exact .fail _ _

/-- A computation may look at the state, but not at the output. -/
theorem get {next next' : Interpreter → Eval β} (ho : ∀ i o, next' (i.withOutput o) = next' i)
    (hn : ∀ i, Replays (next i) (next' i)) : Replays (get >>= next) (get >>= next') := by
  intro i r j h
  obtain ⟨lines, hj, hnext⟩ := hn i i r j h
  refine ⟨lines, hj, fun o => ?_⟩
  change next' (i.withOutput o) (i.withOutput o) = _
  rw [ho, hnext]

theorem call (hm : Replays m m') (e : Environment) (ps : List String) (vs : List Value)
    (c : Context) :
    Replays (openScope e ps vs >>= fun e => inFrame e c m)
      (openScope e ps vs >>= fun e => inFrame e c m') := by
  intro i r j h
  rw [openScope_inFrame] at h
  cases hmi : m { i.opened e ps vs with context := c } with
  | none =>
    rw [hmi] at h
    cases h
  | some p =>
    obtain ⟨r', k⟩ := p
    obtain ⟨lines, hk, hm'⟩ := hm _ r' k hmi
    rw [hmi] at h
    cases h
    refine ⟨lines, hk, fun o => ?_⟩
    have hstate : { (i.withOutput o).opened e ps vs with context := c } =
        withOutput o { i.opened e ps vs with context := c } := rfl
    rw [openScope_inFrame, hstate, hm' o]
    rfl

theorem builtin (b : Builtin) (e : Environment) (ps : List String) (vs : List Value) (c : Context)
    (s : Span) :
    Replays (openScope e ps vs >>= fun e => runBuiltin b e c s)
      (openScope e ps vs >>= fun e => runBuiltin b e c s) := by
  intro i r j h
  let k : Interpreter := { i with store := (i.opened e ps vs).store }
  let look : String → Option Datum := fun x =>
    (k.store.lookup (e.child i.store.fresh) x).map Value.datum
  obtain ⟨p, rest, lines, hp⟩ := b.run_output look i.console.input
  have hrun : ∀ o, runBuiltin b (e.child i.store.fresh) c s (k.withOutput o) =
      some (builtinResult c s p, { k with console := ⟨rest, o ++ lines⟩ }) :=
    fun o => by exact runBuiltin_apply b _ c s (k.withOutput o) (hp o)
  change runBuiltin b (e.child i.store.fresh) c s (k.withOutput i.console.output) = _ at h
  rw [hrun] at h
  cases h
  exact ⟨lines, rfl, hrun⟩

/-- The end of a computation is one of the other as well. -/
theorem apply_eq (h : Replays m m') {i : Interpreter} {p : Except Diagnostic α × Interpreter}
    (hp : m i = some p) : m' i = some p := by
  obtain ⟨lines, hj, hm'⟩ := h i p.1 p.2 hp
  have ho := hm' i.console.output
  rw [← hj] at ho
  exact ho

end Replays

/-- Every part of the evaluator does with more fuel what it does with less. -/
structure Replaying (fuel fuel' : Nat) : Prop where
  eval : ∀ e, Replays (eval fuel e) (eval fuel' e)
  evalArms : ∀ m as, Replays (evalArms fuel m as) (evalArms fuel' m as)
  evalStep : ∀ s, Replays (evalStep fuel s) (evalStep fuel' s)
  countFrom : ∀ m x by_ last body n,
    Replays (countFrom fuel m x by_ last body n) (countFrom fuel' m x by_ last body n)
  repeatWhile : ∀ test body, Replays (repeatWhile fuel test body) (repeatWhile fuel' test body)
  evalAll : ∀ es, Replays (evalAll fuel es) (evalAll fuel' es)
  apply : ∀ f vs m, Replays (apply fuel f vs m) (apply fuel' f vs m)

theorem replays_var (fuel fuel' : Nat) (m : Span) (x : String) :
    Replays (eval (fuel + 1) (.var m x)) (eval (fuel' + 1) (.var m x)) := by
  refine .bind (.lookup x) fun o => ?_
  split
  · exact .pure _
  · exact .fail _ _

theorem replays_function (fuel fuel' : Nat) (m : Span) (x : Option String) (ps : List String)
    (body : Expr Span) :
    Replays (eval (fuel + 1) (.function m x ps body))
      (eval (fuel' + 1) (.function m x ps body)) := by
  refine .get (fun _ _ => rfl) fun i => .bind (.tag _ _) fun f => ?_
  cases x with
  | none => exact .pure _
  | some name => exact .bind (.define name f) fun _ => .pure _

section

variable {fuel fuel' : Nat} (h : Replaying fuel fuel')
include h

theorem replays_choice (test body : Expr Span) {other other' : Eval Value}
    (ho : Replays other other') :
    Replays (do if (← eval fuel test).datum.isTrue then eval fuel body else other)
      (do if (← eval fuel' test).datum.isTrue then eval fuel' body else other') := by
  refine .bind (h.eval test) fun v => ?_
  split
  · exact h.eval body
  · exact ho

theorem replays_count (m : Span) (x : String) (start stop : Expr Span)
    (step : Option (Expr Span)) (body : Expr Span) :
    Replays (eval (fuel + 1) (.count m x start stop step body))
      (eval (fuel' + 1) (.count m x start stop step body)) := by
  refine .bind (h.eval start) fun a => .bind (.asBound _ _ a) fun first => ?_
  refine .bind (h.eval stop) fun b => .bind (.asBound _ _ b) fun last => ?_
  refine .bind (h.evalStep step) fun by_ => ?_
  exact .bind (h.countFrom m x by_ last body first) fun _ => .tag _ _

theorem replays_call (m : Span) (callee : Expr Span) (args : List (Expr Span)) :
    Replays (eval (fuel + 1) (.call m callee args)) (eval (fuel' + 1) (.call m callee args)) := by
  refine .bind (h.eval callee) fun f => .bind (h.evalAll args) fun vs => ?_
  split
  · exact .bind (h.apply _ vs m) fun _ => .tag _ _
  · exact .fail _ _

theorem replays_eval (e : Expr Span) : Replays (eval (fuel + 1) e) (eval (fuel' + 1) e) := by
  cases e with
  | number m n => exact .tag _ _
  | string m s => exact .tag _ _
  | var m x => exact replays_var fuel fuel' m x
  | assign m x e => exact .bind (h.eval e) fun v => .bind (.define x v) fun _ => .pure v
  | binary m op l r =>
    exact .bind (h.eval l) fun a => .bind (h.eval r) fun b => .tagResult _ _ _
  | unary m op e => exact .bind (h.eval e) fun a => .tagResult _ _ _
  | choose m test body arms => exact replays_choice h test body (h.evalArms m arms)
  | count m x start stop step body => exact replays_count h m x start stop step body
  | loop m test body => exact .bind (h.repeatWhile test body) fun _ => .tag _ _
  | function m x ps body => exact replays_function fuel fuel' m x ps body
  | call m callee args => exact replays_call h m callee args

theorem replays_evalArms (m : Span) (as : Arms Span) :
    Replays (evalArms (fuel + 1) m as) (evalArms (fuel' + 1) m as) := by
  cases as with
  | done => exact .tag _ _
  | otherwise body => exact h.eval body
  | elif test body arms => exact replays_choice h test body (h.evalArms m arms)

theorem replays_evalStep (s : Option (Expr Span)) :
    Replays (evalStep (fuel + 1) s) (evalStep (fuel' + 1) s) := by
  cases s with
  | none => exact .pure _
  | some e =>
    refine .bind (h.eval e) fun v => .bind (.asBound _ _ v) fun n => ?_
    split
    · exact .fail _ _
    · exact .pure _

theorem replays_countFrom (m : Span) (x : String) (by_ last : Int64) (body : Expr Span)
    (n : Int64) :
    Replays (countFrom (fuel + 1) m x by_ last body n)
      (countFrom (fuel' + 1) m x by_ last body n) := by
  unfold countFrom
  split
  · refine .bind (.tag _ _) fun v => .bind (.define x v) fun _ => .bind (h.eval body) fun _ => ?_
    split
    · exact h.countFrom m x by_ last body _
    · exact .pure _
  · exact .pure _

theorem replays_repeatWhile (test body : Expr Span) :
    Replays (repeatWhile (fuel + 1) test body) (repeatWhile (fuel' + 1) test body) := by
  refine .bind (h.eval test) fun v => ?_
  split
  · exact .bind (h.eval body) fun _ => h.repeatWhile test body
  · exact .pure _

theorem replays_evalAll (es : List (Expr Span)) :
    Replays (evalAll (fuel + 1) es) (evalAll (fuel' + 1) es) := by
  cases es with
  | nil => exact .pure _
  | cons e es => exact .bind (h.eval e) fun v => .bind (h.evalAll es) fun vs => .pure _

theorem replays_apply (f : Function) (vs : List Value) (m : Span) :
    Replays (apply (fuel + 1) f vs m) (apply (fuel' + 1) f vs m) := by
  unfold apply
  split
  · exact .fail _ _
  · cases f with
    | closure x ps body closed =>
      exact .get (fun _ _ => rfl) fun i => .call (h.eval body) closed ps vs _
    | builtin b => exact .get (fun _ _ => rfl) fun i => .builtin b i.environment _ vs _ m

end

theorem replaying {fuel fuel' : Nat} (hle : fuel ≤ fuel') : Replaying fuel fuel' := by
  induction fuel generalizing fuel' with
  | zero => constructor <;> intros <;> exact .outOfFuel
  | succ fuel ih =>
    obtain ⟨fuel', rfl⟩ := Nat.exists_eq_add_of_lt hle
    have h : Replaying fuel (fuel + fuel') := ih (Nat.le_add_right _ _)
    exact {
      eval := replays_eval h
      evalArms := replays_evalArms h
      evalStep := replays_evalStep h
      countFrom := replays_countFrom h
      repeatWhile := replays_repeatWhile h
      evalAll := replays_evalAll h
      apply := replays_apply h }

/-- What an evaluation comes to does not depend on how much fuel is left over. -/
theorem eval_of_le {fuel fuel' : Nat} (hle : fuel ≤ fuel') {e : Expr Span} {i : Interpreter}
    {p : Except Diagnostic Value × Interpreter} (h : eval fuel e i = some p) :
    eval fuel' e i = some p :=
  ((replaying hle).eval e).apply_eq h

theorem replays_evalSource (fuel : Nat) (s : Source) :
    Replays (evalSource fuel s) (evalSource fuel s) := by
  have hparse : Replays (liftM (Scan.tokens s >>= parse)) (liftM (Scan.tokens s >>= parse)) :=
    .of_silent (fun _ => rfl) (fun _ => rfl) fun _ _ => rfl
  exact .bind hparse (replaying (Nat.le_refl fuel)).eval

end Interpreter

end Minibasic

import Minibasic.Interpreter

/-!
What evaluation does to the scopes, in order. A computation is made up of computations that change
nothing, of single bindings and of calls; the history of a run lists its bindings and where calls
begin and end. Every run of the evaluator has a history.
-/

namespace Minibasic

/-- A change of the scopes. -/
inductive Effect where
  /-- A name is bound. -/
  | bind (id : ScopeId) (name : String)
  /-- A call begins, in a new scope that binds its arguments. -/
  | enter (id : ScopeId)
  /-- The call comes to its end or fails, and its scope binds what is left in it. -/
  | leave (id : ScopeId) (left : Scope)

namespace Interpreter

variable {α β : Type}

/-- The computation changes nothing. -/
def ReadOnly (m : Eval α) : Prop := ∀ i, ∃ r, m i = some (r, i)

/-- The interpreter in a new scope inside `e`, which binds `names` to `vs`. -/
def opened (i : Interpreter) (e : Environment) (names : List String) (vs : List Value) :
    Interpreter :=
  { i with
    environment := e.child i.store.fresh
    store := i.store.grow.defineAll i.store.fresh names vs }

/-- A run of the computation from `i` to `i'` with the result `r`, and its history. -/
inductive Performs : {α : Type} → Eval α → Interpreter → List Effect → Except Diagnostic α →
    Interpreter → Prop where
  | readOnly {α : Type} {m : Eval α} {i : Interpreter} {r : Except Diagnostic α} :
      ReadOnly m → m i = some (r, i) → Performs m i [] r i
  | define {x : String} {v : Value} {i : Interpreter} :
      Performs (define x v) i [.bind i.environment.scope x] (.ok ())
        { i with store := i.store.define i.environment.scope x v }
  | call {α : Type} {body : Eval α} {e : Environment} {ps : List String} {vs : List Value}
      {c : Context} {i j : Interpreter} {h : List Effect} {r : Except Diagnostic α} :
      Performs body { i.opened e ps vs with context := c } h r j →
      Performs (openScope e ps vs >>= fun e => inFrame e c body) i
        (.enter i.store.fresh :: (h ++ [.leave i.store.fresh (j.store.scope i.store.fresh)])) r
        { j with environment := i.environment, context := i.context }
  | builtin {b : Builtin} {e : Environment} {ps : List String} {vs : List Value} {c : Context}
      {s : Span} {i : Interpreter} {r : Except Diagnostic Value} {console : Console} :
      (openScope e ps vs >>= fun e => runBuiltin b e c s) i =
        some (r, { i with store := (i.opened e ps vs).store, console }) →
      Performs (openScope e ps vs >>= fun e => runBuiltin b e c s) i
        [.enter i.store.fresh,
          .leave i.store.fresh ((i.opened e ps vs).store.scope i.store.fresh)] r
        { i with store := (i.opened e ps vs).store, console }
  | bind {α β : Type} {m : Eval α} {next : α → Eval β} {i j i' : Interpreter} {a : α}
      {h h' : List Effect} {r : Except Diagnostic β} :
      Performs m i h (.ok a) j → Performs (next a) j h' r i' →
      Performs (m >>= next) i (h ++ h') r i'
  | stop {α β : Type} {m : Eval α} {next : α → Eval β} {i j : Interpreter} {d : Diagnostic}
      {h : List Effect} :
      Performs m i h (.error d) j → Performs (m >>= next) i h (.error d) j

/-- A computation goes on with the result of another, or fails with it. -/
theorem bind_apply (m : Eval α) (next : α → Eval β) (i : Interpreter) :
    (m >>= next) i = match m i with
      | some (.ok a, j) => next a j
      | some (.error d, j) => some (.error d, j)
      | none => none := by
  change (m i >>= fun p => ExceptT.bindCont next p.1 p.2) = _
  rcases m i with _ | ⟨_ | _, _⟩ <;> rfl

/-- What a computation goes on with after another. -/
theorem exists_of_bind {run : Eval α} {next : α → Eval β} {b : β} {i i' : Interpreter}
    (h : (run >>= next) i = some (.ok b, i')) :
    ∃ a j, run i = some (.ok a, j) ∧ next a j = some (.ok b, i') := by
  rw [bind_apply] at h
  split at h
  next a j hrun => exact ⟨a, j, hrun, h⟩
  · cases h
  · cases h

/-- A body that runs in a scope of its own ends in the frame that it was called from. -/
theorem openScope_inFrame (body : Eval α) (e : Environment) (ps : List String) (vs : List Value)
    (c : Context) (i : Interpreter) :
    (openScope e ps vs >>= fun e => inFrame e c body) i =
      match body { i.opened e ps vs with context := c } with
      | some (r, j) => some (r, { j with environment := i.environment, context := i.context })
      | none => none := rfl

/-- A history is that of a run. -/
theorem Performs.apply_eq {m : Eval α} {i i' : Interpreter} {h : List Effect}
    {r : Except Diagnostic α} (p : Performs m i h r i') : m i = some (r, i') := by
  induction p with
  | readOnly _ hr => exact hr
  | define => rfl
  | call _ ih => rw [openScope_inFrame, ih]
  | builtin hr => exact hr
  | bind _ _ ih ih' =>
    rw [bind_apply, ih]
    exact ih'
  | stop _ ih => rw [bind_apply, ih]

section ReadOnly

theorem ReadOnly.eq {m : Eval α} (hm : ReadOnly m) {i j : Interpreter} {r : Except Diagnostic α}
    (h : m i = some (r, j)) : j = i := by
  obtain ⟨r', hr⟩ := hm i
  rw [hr] at h
  cases h
  rfl

theorem readOnly_pure (a : α) : ReadOnly (pure a : Eval α) := fun _ => ⟨_, rfl⟩

theorem readOnly_tag (s : Span) (d : Datum) : ReadOnly (tag s d) := fun _ => ⟨_, rfl⟩

theorem readOnly_fail (c : Cause) (s : Span) : ReadOnly (fail c s : Eval α) := fun _ => ⟨_, rfl⟩

theorem readOnly_lookup (x : String) : ReadOnly (lookup x) := fun _ => ⟨_, rfl⟩

theorem readOnly_get : ReadOnly (get : Eval Interpreter) := fun _ => ⟨_, rfl⟩

theorem readOnly_tagResult (s t : Span) (r : Except Cause Datum) : ReadOnly (tagResult s t r) := by
  unfold tagResult
  split
  · exact readOnly_tag _ _
  · exact readOnly_fail _ _
  · exact readOnly_fail _ _

theorem readOnly_asBound (b : Bound) (s : Span) (v : Value) : ReadOnly (asBound b s v) := by
  unfold asBound
  split
  · exact readOnly_pure _
  · exact readOnly_fail _ _

end ReadOnly

/-- Every run of the computation has a history. -/
def Recorded (m : Eval α) : Prop :=
  ∀ i r i', m i = some (r, i') → ∃ h, Performs m i h r i'

namespace Recorded

theorem readOnly {m : Eval α} (hm : ReadOnly m) : Recorded m := by
  intro i r i' h
  obtain rfl : i' = i := hm.eq h
  exact ⟨[], .readOnly hm h⟩

theorem bind {m : Eval α} {next : α → Eval β} (hm : Recorded m) (hn : ∀ a, Recorded (next a)) :
    Recorded (m >>= next) := by
  intro i r i' h
  rw [bind_apply] at h
  cases hmi : m i with
  | none =>
    rw [hmi] at h
    cases h
  | some p =>
    obtain ⟨rm, j⟩ := p
    obtain ⟨h₁, p₁⟩ := hm i rm j hmi
    rw [hmi] at h
    cases rm with
    | ok a =>
      obtain ⟨h₂, p₂⟩ := hn a j r i' h
      exact ⟨h₁ ++ h₂, .bind p₁ p₂⟩
    | error d =>
      cases h
      exact ⟨h₁, .stop p₁⟩

theorem outOfFuel : Recorded (outOfFuel : Eval α) := by
  intro i r i' h
  cases h

theorem define (x : String) (v : Value) : Recorded (define x v) := by
  intro i r i' h
  cases h
  exact ⟨_, .define⟩

theorem call {body : Eval α} (hb : Recorded body) (e : Environment) (ps : List String)
    (vs : List Value) (c : Context) :
    Recorded (openScope e ps vs >>= fun e => inFrame e c body) := by
  intro i r i' h
  rw [openScope_inFrame] at h
  cases hbody : body { i.opened e ps vs with context := c } with
  | none =>
    rw [hbody] at h
    cases h
  | some p =>
    obtain ⟨r', j⟩ := p
    obtain ⟨h', p'⟩ := hb _ _ _ hbody
    rw [hbody] at h
    cases h
    exact ⟨_, .call p'⟩

theorem builtin (b : Builtin) (e : Environment) (ps : List String) (vs : List Value) (c : Context)
    (s : Span) : Recorded (openScope e ps vs >>= fun e => runBuiltin b e c s) := by
  intro i r i' h
  -- A built-in function changes no scope but the new one.
  have hi : i' = { i with store := (i.opened e ps vs).store, console := i'.console } := by
    cases h
    rfl
  rw [hi] at h ⊢
  exact ⟨_, .builtin h⟩

end Recorded

/-- Every part of the evaluator has a history with this fuel. -/
structure Recording (fuel : Nat) : Prop where
  eval : ∀ e, Recorded (eval fuel e)
  evalArms : ∀ m as, Recorded (evalArms fuel m as)
  evalStep : ∀ s, Recorded (evalStep fuel s)
  countFrom : ∀ m x by_ last body n, Recorded (countFrom fuel m x by_ last body n)
  repeatWhile : ∀ test body, Recorded (repeatWhile fuel test body)
  evalAll : ∀ es, Recorded (evalAll fuel es)
  apply : ∀ f vs m, Recorded (apply fuel f vs m)

theorem recorded_function (fuel : Nat) (m : Span) (x : Option String) (ps : List String)
    (body : Expr Span) : Recorded (eval (fuel + 1) (.function m x ps body)) := by
  refine .bind (.readOnly readOnly_get) fun i => .bind (.readOnly (readOnly_tag _ _)) fun f => ?_
  cases x with
  | none => exact .readOnly (readOnly_pure _)
  | some name => exact .bind (.define name f) fun _ => .readOnly (readOnly_pure _)

theorem recorded_var (fuel : Nat) (m : Span) (x : String) :
    Recorded (eval (fuel + 1) (.var m x)) := by
  refine .bind (.readOnly (readOnly_lookup x)) fun o => ?_
  split
  · exact .readOnly (readOnly_pure _)
  · exact .readOnly (readOnly_fail _ _)

section

variable {fuel : Nat} (h : Recording fuel)
include h

theorem recorded_choice (test body : Expr Span) {other : Eval Value} (ho : Recorded other) :
    Recorded (do if (← eval fuel test).datum.isTrue then eval fuel body else other) := by
  refine .bind (h.eval test) fun v => ?_
  split
  · exact h.eval body
  · exact ho

theorem recorded_call (m : Span) (callee : Expr Span) (args : List (Expr Span)) :
    Recorded (eval (fuel + 1) (.call m callee args)) := by
  refine .bind (h.eval callee) fun f => .bind (h.evalAll args) fun vs => ?_
  split
  · exact .bind (h.apply _ vs m) fun _ => .readOnly (readOnly_tag _ _)
  · exact .readOnly (readOnly_fail _ _)

theorem recorded_eval (e : Expr Span) : Recorded (eval (fuel + 1) e) := by
  cases e with
  | number m n => exact .readOnly (readOnly_tag _ _)
  | string m s => exact .readOnly (readOnly_tag _ _)
  | var m x => exact recorded_var fuel m x
  | assign m x e =>
    exact .bind (h.eval e) fun v => .bind (.define x v) fun _ => .readOnly (readOnly_pure v)
  | binary m op l r =>
    refine .bind (h.eval l) fun a => .bind (h.eval r) fun b => ?_
    exact .readOnly (readOnly_tagResult _ _ _)
  | unary m op e => exact .bind (h.eval e) fun a => .readOnly (readOnly_tagResult _ _ _)
  | choose m test body arms => exact recorded_choice h test body (h.evalArms m arms)
  | count m x start stop step body =>
    refine .bind (h.eval start) fun a => .bind (.readOnly (readOnly_asBound _ _ a)) fun first => ?_
    refine .bind (h.eval stop) fun b => .bind (.readOnly (readOnly_asBound _ _ b)) fun last => ?_
    refine .bind (h.evalStep step) fun by_ => ?_
    exact .bind (h.countFrom m x by_ last body first) fun _ => .readOnly (readOnly_tag _ _)
  | loop m test body =>
    exact .bind (h.repeatWhile test body) fun _ => .readOnly (readOnly_tag _ _)
  | function m x ps body => exact recorded_function fuel m x ps body
  | call m callee args => exact recorded_call h m callee args

theorem recorded_evalArms (m : Span) (as : Arms Span) : Recorded (evalArms (fuel + 1) m as) := by
  cases as with
  | done => exact .readOnly (readOnly_tag _ _)
  | otherwise body => exact h.eval body
  | elif test body arms => exact recorded_choice h test body (h.evalArms m arms)

theorem recorded_evalStep (s : Option (Expr Span)) : Recorded (evalStep (fuel + 1) s) := by
  cases s with
  | none => exact .readOnly (readOnly_pure _)
  | some e =>
    refine .bind (h.eval e) fun v => .bind (.readOnly (readOnly_asBound _ _ v)) fun n => ?_
    split
    · exact .readOnly (readOnly_fail _ _)
    · exact .readOnly (readOnly_pure _)

theorem recorded_countFrom (m : Span) (x : String) (by_ last : Int64) (body : Expr Span)
    (n : Int64) : Recorded (countFrom (fuel + 1) m x by_ last body n) := by
  unfold countFrom
  split
  · refine .bind (.readOnly (readOnly_tag _ _)) fun v => .bind (.define x v) fun _ => ?_
    refine .bind (h.eval body) fun _ => ?_
    split
    · exact h.countFrom m x by_ last body _
    · exact .readOnly (readOnly_pure _)
  · exact .readOnly (readOnly_pure _)

theorem recorded_repeatWhile (test body : Expr Span) :
    Recorded (repeatWhile (fuel + 1) test body) := by
  refine .bind (h.eval test) fun v => ?_
  split
  · exact .bind (h.eval body) fun _ => h.repeatWhile test body
  · exact .readOnly (readOnly_pure _)

theorem recorded_evalAll (es : List (Expr Span)) : Recorded (evalAll (fuel + 1) es) := by
  cases es with
  | nil => exact .readOnly (readOnly_pure _)
  | cons e es =>
    exact .bind (h.eval e) fun v => .bind (h.evalAll es) fun vs => .readOnly (readOnly_pure _)

theorem recorded_apply (f : Function) (vs : List Value) (m : Span) :
    Recorded (apply (fuel + 1) f vs m) := by
  unfold apply
  split
  · exact .readOnly (readOnly_fail _ _)
  · refine .bind (.readOnly readOnly_get) fun i => ?_
    cases f with
    | closure x ps body closed => exact .call (h.eval body) closed ps vs _
    | builtin b => exact .builtin b _ _ vs _ m

end

theorem recording (fuel : Nat) : Recording fuel := by
  induction fuel with
  | zero => constructor <;> intros <;> exact .outOfFuel
  | succ fuel h =>
    exact {
      eval := recorded_eval h
      evalArms := recorded_evalArms h
      evalStep := recorded_evalStep h
      countFrom := recorded_countFrom h
      repeatWhile := recorded_repeatWhile h
      evalAll := recorded_evalAll h
      apply := recorded_apply h }

end Interpreter

end Minibasic

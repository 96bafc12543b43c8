import Minibasic.Proofs.Evaluation.Tasks

/-!
How tasks fail. Something is wrong with a task itself, or one of its parts fails; so every failure
has one place where it arises, and a path of tasks and calls leads there.
-/

namespace Minibasic.Interpreter

/-- The failure of a bound that is no integer. -/
def notInteger (b : Bound) (v : Value) : Cause :=
  .invalidLoopBound (b.text ++ " must be an integer, got " ++ v.datum.echo)

/-- The place to blame for the failure of a binary operator. -/
def operatorSpan (whole divisor : Span) (c : Cause) : Span :=
  if c = .divisionByZero then divisor else whole

/-- With fuel `n` for its parts, none of which fails, the task in the state `i` fails for a cause at
a span, inside of `calls` as seen from the task. -/
inductive Fault (n : Nat) : Task → Interpreter → List Activation → Cause → Span → Prop
  | notDefined : i.store.lookup i.environment x = none →
      Fault n (.eval (.var m x)) i [] (.notDefined x) m
  | binary : eval n l i = some (.ok a, j) → eval n r j = some (.ok b, k) →
      Datum.binary op a.datum b.datum = .error c →
      Fault n (.eval (.binary m op l r)) i [] c (operatorSpan m r.mark c)
  | unary : eval n e i = some (.ok a, j) → Datum.unary op a.datum = .error c →
      Fault n (.eval (.unary m op e)) i [] c m
  | start : eval n start i = some (.ok a, j) → a.bound? = none →
      Fault n (.eval (.count m x start stop step body)) i [] (notInteger .start a) start.mark
  | stop : eval n start i = some (.ok a, j) → a.bound? = some first →
      eval n stop j = some (.ok b, k) → b.bound? = none →
      Fault n (.eval (.count m x start stop step body)) i [] (notInteger .stop b) stop.mark
  | step : eval n e i = some (.ok a, j) → a.bound? = none →
      Fault n (.step (some e)) i [] (notInteger .step a) e.mark
  | zeroStep : eval n e i = some (.ok a, j) → a.bound? = some 0 →
      Fault n (.step (some e)) i [] (.invalidLoopBound "step must not be zero") e.mark
  | notCallable : eval n callee i = some (.ok v, j) → (∀ f, v.datum ≠ .function f) →
      evalAll n args j = some (.ok vs, k) →
      Fault n (.eval (.call m callee args)) i []
        (.illegalOperation (v.datum.typeName ++ " is not callable")) callee.mark
  | arity : vs.length ≠ f.arity →
      Fault n (.apply f vs m) i [] (.arityMismatch f.name f.arity vs.length) m
  | builtin : vs.length = b.params.length →
      b.run (fun _ => vs.head?.map Value.datum) i.console = (.error c, k) →
      Fault n (.apply (.builtin b) vs m) i [⟨.builtin b, m⟩] c m

/-- The computation fails with `d`. -/
def Stops {α : Type} (m : Eval α) (i : Interpreter) (d : Diagnostic) : Prop :=
  ∃ j, m i = some (.error d, j)

/-- How the task comes to fail with `d`: by a fault of its own, or by a part of it that fails. -/
inductive Origin (n : Nat) (t : Task) (i : Interpreter) (d : Diagnostic) : Prop
  | fault : Fault n t i calls d.cause d.span → d.context = some (i.context.within calls) →
      Origin n t i d
  | part : Part n t i calls t' j → Stops (t'.run n) j d → Origin n t i d

section

variable {α β : Type} {m : Eval α} {i j : Interpreter} {d : Diagnostic}

theorem stops_bind {next : α → Eval β} :
    Stops (m >>= next) i d ↔ Stops m i d ∨ ∃ a j, m i = some (.ok a, j) ∧ Stops (next a) j d := by
  unfold Stops
  rw [bind_apply]
  constructor
  · intro h
    obtain ⟨i', h⟩ := h
    cases hm : m i with
    | none =>
      rw [hm] at h
      cases h
    | some p =>
      obtain ⟨r, j⟩ := p
      rw [hm] at h
      cases r with
      | ok a => exact .inr ⟨a, j, rfl, i', h⟩
      | error d' =>
        cases h
        exact .inl ⟨i', rfl⟩
  · intro h
    rcases h with ⟨j, hj⟩ | ⟨a, j, ha, i', h⟩
    · rw [hj]
      exact ⟨j, rfl⟩
    · rw [ha]
      exact ⟨i', h⟩

theorem Stops.bind_left {next : α → Eval β} (h : Stops m i d) : Stops (m >>= next) i d :=
  stops_bind.mpr (.inl h)

theorem Stops.bind_right {next : α → Eval β} {a : α} (hm : m i = some (.ok a, j))
    (h : Stops (next a) j d) : Stops (m >>= next) i d :=
  stops_bind.mpr (.inr ⟨a, j, hm, h⟩)

theorem not_stops_outOfFuel : ¬Stops (outOfFuel : Eval α) i d := by
  intro h
  obtain ⟨j, h⟩ := h
  cases h

theorem not_stops {a : α} (hm : m i = some (.ok a, j)) : ¬Stops m i d := by
  intro h
  obtain ⟨k, h⟩ := h
  rw [hm] at h
  cases h

theorem fail_ne_ok (c : Cause) (s : Span) (a : α) : fail c s i ≠ some (.ok a, j) := by
  intro h
  cases h

theorem stops_fail {c : Cause} {s : Span} :
    Stops (fail c s : Eval α) i d ↔ d = ⟨c, s, some i.context⟩ := by
  constructor
  · intro h
    obtain ⟨j, h⟩ := h
    cases h
    rfl
  · intro h
    rw [h]
    exact ⟨i, rfl⟩

theorem stops_tagResult {s t : Span} {r : Except Cause Datum} :
    Stops (tagResult s t r) i d ↔
      ∃ c, r = .error c ∧ d = ⟨c, operatorSpan s t c, some i.context⟩ := by
  unfold tagResult operatorSpan
  split
  next x => simpa using not_stops rfl
  next => simp [stops_fail]
  next c hc => simp [stops_fail, if_neg hc]

theorem stops_asBound {b : Bound} {s : Span} {v : Value} {next : Int64 → Eval β} :
    Stops (asBound b s v >>= next) i d ↔
      v.bound? = none ∧ d = ⟨notInteger b v, s, some i.context⟩ ∨
        ∃ n, v.bound? = some n ∧ Stops (next n) i d := by
  unfold asBound Value.bound?
  cases v.datum.number?.bind Number.toInt64? with
  | none => simp [stops_bind, stops_fail, fail_ne_ok, notInteger]
  | some n => simp

theorem Stops.bind_bound {b : Bound} {s : Span} {v : Value} {next : Int64 → Eval β} {n : Int64}
    (hv : v.bound? = some n) (h : Stops (next n) i d) : Stops (asBound b s v >>= next) i d :=
  stops_asBound.mpr (.inr ⟨n, hv, h⟩)

end

variable {n : Nat} {t t' : Task} {i j : Interpreter} {calls : List Activation} {d : Diagnostic}

theorem origin_var {m : Span} {x : String} (h : Stops (eval (n + 1) (.var m x)) i d) :
    Origin n (.eval (.var m x)) i d := by
  rcases stops_bind.mp h with ⟨j, h⟩ | ⟨o, j, ho, h⟩
  · cases h
  · obtain ⟨rfl, rfl⟩ : i.store.lookup i.environment x = o ∧ i = j := by
      cases ho
      exact ⟨rfl, rfl⟩
    split at h
    · exact absurd h (not_stops rfl)
    next hx =>
      obtain rfl := stops_fail.mp h
      exact .fault (.notDefined hx) rfl

theorem origin_assign {m : Span} {x : String} {e : Expr Span}
    (h : Stops (eval (n + 1) (.assign m x e)) i d) : Origin n (.eval (.assign m x e)) i d := by
  rcases stops_bind.mp h with h | ⟨v, j, -, h⟩
  · exact .part (.first rfl) h
  · rcases stops_bind.mp h with h | ⟨_, k, -, h⟩
    · exact absurd h (not_stops rfl)
    · exact absurd h (not_stops rfl)

theorem origin_binary {m : Span} {op : BinaryOp} {l r : Expr Span}
    (h : Stops (eval (n + 1) (.binary m op l r)) i d) :
    Origin n (.eval (.binary m op l r)) i d := by
  rcases stops_bind.mp h with h | ⟨a, j, ha, h⟩
  · exact .part (.first rfl) h
  · rcases stops_bind.mp h with h | ⟨b, k, hb, h⟩
    · exact .part (.right ha) h
    · obtain ⟨c, hc, rfl⟩ := stops_tagResult.mp h
      have hcontext : k.context = i.context := (context_of_eval hb).trans (context_of_eval ha)
      exact .fault (.binary ha hb hc) (congrArg some hcontext)

theorem origin_unary {m : Span} {op : UnaryOp} {e : Expr Span}
    (h : Stops (eval (n + 1) (.unary m op e)) i d) : Origin n (.eval (.unary m op e)) i d := by
  rcases stops_bind.mp h with h | ⟨a, j, ha, h⟩
  · exact .part (.first rfl) h
  · obtain ⟨c, hc, rfl⟩ := stops_tagResult.mp h
    have hspan : operatorSpan m m c = m := ite_self m
    rw [hspan]
    exact .fault (.unary ha hc) (congrArg some (context_of_eval ha))

theorem origin_choice {test body : Expr Span} {m : Span} {as : Arms Span}
    (hc : t.choice? = some (test, body, m, as)) (hf : t.first? = some (.eval test))
    (h : Stops (do if (← eval n test).datum.isTrue then eval n body else evalArms n m as) i d) :
    Origin n t i d := by
  rcases stops_bind.mp h with h | ⟨v, j, hv, h⟩
  · exact .part (.first hf) h
  · split at h
    next htrue => exact .part (.chosen hc hv htrue) h
    next hfalse => exact .part (.other hc hv hfalse) h

theorem origin_count {m : Span} {x : String} {start stop body : Expr Span}
    {step : Option (Expr Span)} (h : Stops (eval (n + 1) (.count m x start stop step body)) i d) :
    Origin n (.eval (.count m x start stop step body)) i d := by
  rcases stops_bind.mp h with h | ⟨a, j, ha, h⟩
  · exact .part (.first rfl) h
  rcases stops_asBound.mp h with ⟨hfirst, rfl⟩ | ⟨first, hfirst, h⟩
  · exact .fault (.start ha hfirst) (congrArg some (context_of_eval ha))
  rcases stops_bind.mp h with h | ⟨b, k, hb, h⟩
  · exact .part (.stop ha hfirst) h
  rcases stops_asBound.mp h with ⟨hlast, rfl⟩ | ⟨last, hlast, h⟩
  · have hcontext : k.context = i.context := (context_of_eval hb).trans (context_of_eval ha)
    exact .fault (.stop ha hfirst hb hlast) (congrArg some hcontext)
  rcases stops_bind.mp h with h | ⟨by_, l, hstep, h⟩
  · exact .part (.step ha hfirst hb hlast) h
  rcases stops_bind.mp h with h | ⟨_, k', -, h⟩
  · exact .part (.count ha hfirst hb hlast hstep) h
  · exact absurd h (not_stops rfl)

theorem origin_loop {m : Span} {test body : Expr Span}
    (h : Stops (eval (n + 1) (.loop m test body)) i d) :
    Origin n (.eval (.loop m test body)) i d := by
  rcases stops_bind.mp h with h | ⟨_, j, -, h⟩
  · exact .part (.first rfl) h
  · exact absurd h (not_stops rfl)

theorem not_stops_function {m : Span} {x : Option String} {ps : List String} {body : Expr Span} :
    ¬Stops (eval (n + 1) (.function m x ps body)) i d := by
  cases x <;> exact not_stops rfl

theorem origin_call {m : Span} {callee : Expr Span} {args : List (Expr Span)}
    (h : Stops (eval (n + 1) (.call m callee args)) i d) :
    Origin n (.eval (.call m callee args)) i d := by
  rcases stops_bind.mp h with h | ⟨v, j, hv, h⟩
  · exact .part (.first rfl) h
  rcases stops_bind.mp h with h | ⟨vs, k, hvs, h⟩
  · exact .part (.arguments hv) h
  split at h
  next f hf =>
    rcases stops_bind.mp h with h | ⟨u, l, -, h⟩
    · exact .part (.apply hv hf hvs) h
    · exact absurd h (not_stops rfl)
  next hf =>
    obtain rfl := stops_fail.mp h
    have hargs := Task.context_of_run (t := .all _) hvs
    exact .fault (.notCallable hv hf hvs) (congrArg some (hargs.trans (context_of_eval hv)))

theorem origin_eval {e : Expr Span} (h : Stops (eval (n + 1) e) i d) : Origin n (.eval e) i d := by
  cases e with
  | number m x => exact absurd h (not_stops rfl)
  | string m x => exact absurd h (not_stops rfl)
  | var m x => exact origin_var h
  | assign m x e => exact origin_assign h
  | binary m op l r => exact origin_binary h
  | unary m op e => exact origin_unary h
  | choose m test body as => exact origin_choice rfl rfl h
  | count m x start stop step body => exact origin_count h
  | loop m test body => exact origin_loop h
  | function m x ps body => exact absurd h not_stops_function
  | call m callee args => exact origin_call h

theorem origin_arms {m : Span} {as : Arms Span} (h : Stops (evalArms (n + 1) m as) i d) :
    Origin n (.arms m as) i d := by
  cases as with
  | done => exact absurd h (not_stops rfl)
  | otherwise body => exact .part (.first rfl) h
  | elif test body as => exact origin_choice rfl rfl h

theorem origin_step {s : Option (Expr Span)} (h : Stops (evalStep (n + 1) s) i d) :
    Origin n (.step s) i d := by
  cases s with
  | none => exact absurd h (not_stops rfl)
  | some e =>
    rcases stops_bind.mp h with h | ⟨v, j, hv, h⟩
    · exact .part (.first rfl) h
    rcases stops_asBound.mp h with ⟨hbound, rfl⟩ | ⟨by_, hbound, h⟩
    · exact .fault (.step hv hbound) (congrArg some (context_of_eval hv))
    split at h
    next hzero =>
      rw [hzero] at hbound
      obtain rfl := stops_fail.mp h
      exact .fault (.zeroStep hv hbound) (congrArg some (context_of_eval hv))
    next => exact absurd h (not_stops rfl)

/-- A counting loop that has not come to its end runs its body first, and then goes on. -/
theorem stops_countFrom {m : Span} {x : String} {by_ last counter : Int64} {body : Expr Span}
    (h : within by_ last counter) :
    Stops (countFrom (n + 1) m x by_ last body counter) i d ↔
      Stops (eval n body) (i.counted m x counter) d ∨
        ∃ v j, eval n body (i.counted m x counter) = some (.ok v, j) ∧
          Stops (match int64? (counter.toInt + by_.toInt) with
            | some next => countFrom n m x by_ last body next
            | none => pure ()) j d := by
  rw [countFrom, if_pos h]
  change Stops (eval n body >>= _) (i.counted m x counter) d ↔ _
  exact stops_bind

theorem origin_countFrom {m : Span} {x : String} {by_ last counter : Int64} {body : Expr Span}
    (h : Stops (countFrom (n + 1) m x by_ last body counter) i d) :
    Origin n (.count m x by_ last body counter) i d := by
  by_cases hwithin : within by_ last counter
  · rcases (stops_countFrom hwithin).mp h with h | ⟨v, j, hv, h⟩
    · exact .part (.iteration hwithin) h
    split at h
    next next hnext => exact .part (.next hwithin hv hnext) h
    next => exact absurd h (not_stops rfl)
  · rw [countFrom, if_neg hwithin] at h
    exact absurd h (not_stops rfl)

theorem origin_repeatWhile {test body : Expr Span}
    (h : Stops (repeatWhile (n + 1) test body) i d) : Origin n (.loop test body) i d := by
  rcases stops_bind.mp h with h | ⟨v, j, hv, h⟩
  · exact .part (.first rfl) h
  split at h
  next htrue =>
    rcases stops_bind.mp h with h | ⟨u, k, hu, h⟩
    · exact .part (.lasting hv htrue) h
    · exact .part (.again hv htrue hu) h
  next => exact absurd h (not_stops rfl)

theorem origin_all {es : List (Expr Span)} (h : Stops (evalAll (n + 1) es) i d) :
    Origin n (.all es) i d := by
  cases es with
  | nil => exact absurd h (not_stops rfl)
  | cons e es =>
    rcases stops_bind.mp h with h | ⟨v, j, hv, h⟩
    · exact .part (.first rfl) h
    rcases stops_bind.mp h with h | ⟨vs, k, -, h⟩
    · exact .part (.tail hv) h
    · exact absurd h (not_stops rfl)

theorem stops_closure {x : Option String} {ps : List String} {body : Expr Span}
    {closed : Environment} {vs : List Value} {m : Span} (h : vs.length = ps.length) :
    Stops (apply (n + 1) (.closure x ps body closed) vs m) i d ↔
      Stops (eval n body) (i.entered x ps closed vs m) d := by
  unfold Stops
  rw [apply_closure h]
  rcases eval n body (i.entered x ps closed vs m) with _ | ⟨r, k⟩
  · simp
  · simp

theorem origin_apply {f : Function} {vs : List Value} {m : Span}
    (h : Stops (apply (n + 1) f vs m) i d) : Origin n (.apply f vs m) i d := by
  by_cases harity : vs.length = f.arity
  · cases f with
    | closure x ps body closed => exact .part (.enter harity) ((stops_closure harity).mp h)
    | builtin b =>
      obtain ⟨j, h⟩ := h
      rw [apply_builtin harity n m i rfl] at h
      obtain ⟨p, hp⟩ : ∃ p, b.run (fun _ => vs.head?.map Value.datum) i.console = p := ⟨_, rfl⟩
      rw [hp] at h
      obtain ⟨r, k⟩ := p
      cases r with
      | ok x => cases h
      | error c =>
        cases h
        exact .fault (.builtin harity hp) rfl
  · obtain ⟨j, h⟩ := h
    rw [apply_arity harity] at h
    cases h
    exact .fault (.arity harity) rfl

theorem Origin.of_stops (h : Stops (t.run (n + 1)) i d) : Origin n t i d := by
  cases t with
  | eval e => exact origin_eval h
  | arms m as => exact origin_arms h
  | step s => exact origin_step h
  | count m x by_ last body counter => exact origin_countFrom h
  | loop test body => exact origin_repeatWhile h
  | all es => exact origin_all h
  | apply f vs m => exact origin_apply h

/-- A task fails with its first part. -/
theorem stops_first (ht : t.first? = some t') (h : Stops (t'.run n) i d) :
    Stops (t.run (n + 1)) i d := by
  unfold Task.first? at ht
  split at ht <;> cases ht
  all_goals first | exact h | exact .bind_left h

/-- A choice comes to what follows its test. -/
theorem stops_choice {test body : Expr Span} {m : Span} {as : Arms Span} {v : Value}
    (ht : t.choice? = some (test, body, m, as)) (hv : eval n test i = some (.ok v, j))
    (h : Stops (if v.datum.isTrue then eval n body else evalArms n m as) j d) :
    Stops (t.run (n + 1)) i d := by
  unfold Task.choice? at ht
  split at ht <;> cases ht
  all_goals exact .bind_right hv h

/-- A task fails with any of its parts. -/
theorem Part.stops (h : Part n t i calls t' j) (hs : Stops (t'.run n) j d) :
    Stops (t.run (n + 1)) i d := by
  cases h with
  | first ht => exact stops_first ht hs
  | right ha => exact .bind_right ha (.bind_left hs)
  | chosen ht hv htrue =>
    refine stops_choice ht hv ?_
    rwa [if_pos htrue]
  | other ht hv hfalse =>
    refine stops_choice ht hv ?_
    rwa [if_neg hfalse]
  | stop ha hfirst => exact .bind_right ha (.bind_bound hfirst (.bind_left hs))
  | step ha hfirst hb hlast =>
    refine .bind_right ha (.bind_bound hfirst ?_)
    exact .bind_right hb (.bind_bound hlast (.bind_left hs))
  | count ha hfirst hb hlast hstep =>
    refine .bind_right ha (.bind_bound hfirst (.bind_right hb (.bind_bound hlast ?_)))
    exact .bind_right hstep (.bind_left hs)
  | iteration hwithin => exact (stops_countFrom hwithin).mpr (.inl hs)
  | next hwithin hv hnext =>
    refine (stops_countFrom hwithin).mpr (.inr ⟨_, _, hv, ?_⟩)
    rwa [hnext]
  | lasting hv htrue =>
    refine .bind_right hv ?_
    rw [if_pos htrue]
    exact .bind_left hs
  | again hv htrue hu =>
    refine .bind_right hv ?_
    rw [if_pos htrue]
    exact .bind_right hu hs
  | tail hv => exact .bind_right hv (.bind_left hs)
  | arguments hv => exact .bind_right hv (.bind_left hs)
  | apply hv hf hvs =>
    refine .bind_right hv (.bind_right hvs ?_)
    rw [hf]
    exact .bind_left hs
  | enter hps => exact (stops_closure hps).mpr hs

/-- A task that has a fault fails. -/
theorem Fault.stops (h : Fault n t i calls d.cause d.span)
    (hd : d.context = some (i.context.within calls)) : Stops (t.run (n + 1)) i d := by
  obtain ⟨c, s, context⟩ := d
  obtain rfl : context = some (i.context.within calls) := hd
  change Fault n t i calls c s at h
  cases h with
  | notDefined hx =>
    refine .bind_right rfl ?_
    rw [hx]
    exact stops_fail.mpr rfl
  | binary ha hb hc =>
    refine .bind_right ha (.bind_right hb ?_)
    have hcontext := (context_of_eval hb).trans (context_of_eval ha)
    exact stops_tagResult.mpr ⟨_, hc, by rw [hcontext]; rfl⟩
  | unary ha hc =>
    refine .bind_right ha (stops_tagResult.mpr ⟨_, hc, ?_⟩)
    rw [context_of_eval ha, operatorSpan, ite_self]
    rfl
  | start ha hfirst =>
    refine .bind_right ha (stops_asBound.mpr (.inl ⟨hfirst, ?_⟩))
    rw [context_of_eval ha]
    rfl
  | stop ha hfirst hb hlast =>
    refine .bind_right ha (.bind_bound hfirst ?_)
    refine .bind_right hb (stops_asBound.mpr (.inl ⟨hlast, ?_⟩))
    rw [context_of_eval hb, context_of_eval ha]
    rfl
  | step ha hbound =>
    refine .bind_right ha (stops_asBound.mpr (.inl ⟨hbound, ?_⟩))
    rw [context_of_eval ha]
    rfl
  | zeroStep ha hbound =>
    refine .bind_right ha (.bind_bound hbound (stops_fail.mpr ?_))
    rw [context_of_eval ha]
    rfl
  | notCallable hv hf hvs =>
    refine .bind_right hv (.bind_right hvs ?_)
    have hcontext := (Task.context_of_run (t := .all _) hvs).trans (context_of_eval hv)
    split
    next f hv' => exact absurd hv' (hf f)
    next => exact stops_fail.mpr (by rw [hcontext]; rfl)
  | arity hvs => exact ⟨i, apply_arity hvs n _ i⟩
  | builtin hvs hrun => exact ⟨_, apply_builtin hvs n _ i hrun⟩

/-- A task fails if it has a fault or comes to a part that fails, and only then. -/
theorem stops_iff_origin : Stops (t.run (n + 1)) i d ↔ Origin n t i d := by
  refine ⟨Origin.of_stops, fun h => ?_⟩
  cases h with
  | fault h hd => exact h.stops hd
  | part h hs => exact h.stops hs

theorem not_stops_zero : ¬Stops (t.run 0) i d := by
  cases t <;> exact not_stops_outOfFuel

/-- A task fails if it comes to a task that has a fault, and only then. The failure tells the cause
and the place of the fault, and all calls that are in progress there. -/
theorem stops_iff_visits {fuel : Nat} :
    Stops (t.run fuel) i d ↔ ∃ calls n u j own, Visits fuel t i calls (n + 1) u j ∧
      Fault n u j own d.cause d.span ∧ d.context = some (i.context.within (own ++ calls)) := by
  -- A part has less fuel than its task, and the calls up to it come last.
  induction fuel generalizing t i with
  | zero =>
    refine iff_of_false not_stops_zero fun h => ?_
    obtain ⟨_, _, _, _, _, hv, -⟩ := h
    cases hv
  | succ fuel ih =>
    rw [stops_iff_origin]
    constructor
    · intro h
      cases h with
      | @fault own h hd =>
        rw [← List.append_nil own] at hd
        exact ⟨[], fuel, t, i, _, .here, h, hd⟩
      | part h hs =>
        obtain ⟨calls, n, u, k, own, hv, hfault, hd⟩ := ih.mp hs
        refine ⟨_, n, u, k, own, .part h hv, hfault, ?_⟩
        rw [hd, h.context, ← Context.within_append, List.append_assoc]
    · intro h
      obtain ⟨calls, n, u, k, own, hv, hfault, hd⟩ := h
      cases hv with
      | here =>
        rw [List.append_nil] at hd
        exact .fault hfault hd
      | part hpart hv =>
        refine .part hpart (ih.mpr ⟨_, n, u, k, own, hv, hfault, ?_⟩)
        rw [hd, hpart.context, ← Context.within_append, List.append_assoc]

end Minibasic.Interpreter

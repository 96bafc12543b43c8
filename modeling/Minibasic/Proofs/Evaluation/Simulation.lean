import Minibasic.Proofs.Evaluation.Likeness

/-!
Two runs side by side. From states that are alike, the same expression but for its marks gives
values or failures that are alike and comes to states that are alike, as long as it has the same
fuel in both.
-/

namespace Minibasic.Interpreter

variable {μ α β γ δ : Type} {V : View μ} {Q : α → β → Prop} {R : γ → δ → Prop}

/-- The ends of two runs: neither has one, or both succeed with results related by `Q`, or both
fail alike; and the states are alike. -/
inductive Ends (V : View μ) (Q : α → β → Prop) : Option (Except Diagnostic α × Interpreter) →
    Option (Except Diagnostic β × Interpreter) → Prop
  | none : Ends V Q none none
  | value {a : α} {b : β} {i i' : Interpreter} : Q a b → i.Alike V i' →
      Ends V Q (some (.ok a, i)) (some (.ok b, i'))
  | failure {d d' : Diagnostic} {i i' : Interpreter} : d.Alike V d' → i.Alike V i' →
      Ends V Q (some (.error d, i)) (some (.error d', i'))

/-- From states that are alike the computations come to ends that are alike. -/
def Parallel (V : View μ) (Q : α → β → Prop) (m : Eval α) (m' : Eval β) : Prop :=
  ∀ i i' : Interpreter, i.Alike V i' → Ends V Q (m i) (m' i')

namespace Parallel

theorem bind {m : Eval α} {m' : Eval β} {next : α → Eval γ} {next' : β → Eval δ}
    (hm : Parallel V Q m m') (hn : ∀ a b, Q a b → Parallel V R (next a) (next' b)) :
    Parallel V R (m >>= next) (m' >>= next') := by
  intro i i' hi
  rw [bind_apply, bind_apply]
  have h := hm i i' hi
  generalize m i = o at h ⊢
  generalize m' i' = o' at h ⊢
  cases h with
  | none => exact .none
  | value hab hj => exact hn _ _ hab _ _ hj
  | failure hd hj => exact .failure hd hj

theorem outOfFuel : Parallel V Q outOfFuel outOfFuel := fun _ _ _ => .none

theorem pure {a : α} {b : β} (h : Q a b) : Parallel V Q (pure a) (pure b) :=
  fun _ _ hi => .value h hi

theorem fail (c : Cause) {s s' : Span} (hs : V.span s = V.span s') :
    Parallel V Q (fail c s) (fail c s') :=
  fun _ _ hi => .failure ⟨rfl, hs⟩ hi

theorem get : Parallel V (Alike V) get get := fun _ _ hi => .value hi hi

theorem tag (s s' : Span) {d d' : Datum} (h : d.Alike V d') :
    Parallel V (Value.Alike V) (tag s d) (tag s' d') :=
  fun _ _ hi => .value h hi

theorem tagResult {s s' t t' : Span} (hs : V.span s = V.span s') (ht : V.span t = V.span t')
    {r r' : Except Cause Datum} (h : ResultsAlike V r r') :
    Parallel V (Value.Alike V) (tagResult s t r) (tagResult s' t' r') := by
  cases h with
  | ok hd => exact .tag s s' hd
  | error c => cases c <;> first | exact .fail _ hs | exact .fail _ ht

theorem define (x : String) {v v' : Value} (hv : v.Alike V v') :
    Parallel V (fun _ _ => True) (define x v) (define x v') :=
  fun _ _ hi => .value trivial (hi.define x hv)

theorem lookup (x : String) :
    Parallel V (Option.Rel (Value.Alike V)) (lookup x) (lookup x) :=
  fun _ _ hi => .value (hi.store.lookup hi.environment x) hi

theorem asBound (b : Bound) {s s' : Span} (hs : V.span s = V.span s') {v v' : Value}
    (hv : v.Alike V v') : Parallel V Eq (asBound b s v) (asBound b s' v') := by
  unfold Interpreter.asBound
  rw [hv.number?, hv.echo]
  split
  · exact .pure rfl
  · exact .fail _ hs

theorem openScope {e e' : Environment} (he : e.Alike V e') (ps : List String)
    {vs vs' : List Value} (hvs : List.Forall₂ (Value.Alike V) vs vs') :
    Parallel V (Environment.Alike V) (openScope e ps vs) (openScope e' ps vs') := by
  intro i i' hi
  have ho := hi.opened he ps hvs
  exact .value ho.environment ⟨hi.environment, ho.store, hi.console⟩

/-- The calls that two bodies run in need not be the same. -/
theorem inFrame {body : Eval α} {body' : Eval β} (hb : Parallel V Q body body')
    {e e' : Environment} (he : e.Alike V e') (c c' : Context) :
    Parallel V Q (inFrame e c body) (inFrame e' c' body') := by
  intro i i' hi
  unfold Interpreter.inFrame
  have hframe : Alike V { i with environment := e, context := c }
      { i' with environment := e', context := c' } := ⟨he, hi.store, hi.console⟩
  have h := hb _ _ hframe
  generalize body _ = o at h ⊢
  generalize body' _ = o' at h ⊢
  cases h with
  | none => exact .none
  | value hab hj => exact .value hab ⟨hi.environment, hj.store, hj.console⟩
  | failure hd hj => exact .failure hd ⟨hi.environment, hj.store, hj.console⟩

theorem runBuiltin (b : Builtin) {e e' : Environment} (he : e.Alike V e') (c c' : Context)
    {s s' : Span} (hs : V.span s = V.span s') :
    Parallel V (Value.Alike V) (runBuiltin b e c s) (runBuiltin b e' c' s') := by
  intro i i' hi
  have hlook : ∀ x, Option.Rel (Datum.Alike V) ((i.store.lookup e x).map Value.datum)
      ((i'.store.lookup e' x).map Value.datum) := by
    intro x
    have hx := hi.store.lookup he x
    generalize i.store.lookup e x = o at hx ⊢
    generalize i'.store.lookup e' x = o' at hx ⊢
    cases hx with
    | some hv => exact .some hv
    | none => exact .none
  unfold Interpreter.runBuiltin
  rw [hi.console, b.run_alike hlook i'.console]
  generalize hr : b.run (fun x => (i'.store.lookup e' x).map Value.datum) i'.console = r
  have hd : ∀ d, r.1 = .ok d → d.Plain := by
    intro d hd
    rw [← hr] at hd
    exact Builtin.run_plain hd
  obtain ⟨r, console⟩ := r
  cases r with
  | ok d => exact .value (.of_plain (hd d rfl)) ⟨hi.environment, hi.store, rfl⟩
  | error cause => exact .failure ⟨rfl, hs⟩ ⟨hi.environment, hi.store, rfl⟩

end Parallel

/-- With this fuel every part of the evaluator runs side by side with itself. -/
structure Simulation (V : View μ) (fuel : Nat) : Prop where
  eval : ∀ e e' : Expr Span, e.map V.span = e'.map V.span →
    Parallel V (Value.Alike V) (eval fuel e) (eval fuel e')
  evalArms : ∀ m m' (as as' : Arms Span), as.map V.span = as'.map V.span →
    Parallel V (Value.Alike V) (evalArms fuel m as) (evalArms fuel m' as')
  evalStep : ∀ s s' : Option (Expr Span), s.map (Expr.map V.span) = s'.map (Expr.map V.span) →
    Parallel V Eq (evalStep fuel s) (evalStep fuel s')
  countFrom : ∀ m m' x by_ last (body body' : Expr Span) n,
    body.map V.span = body'.map V.span →
    Parallel V (fun _ _ => True) (countFrom fuel m x by_ last body n)
      (countFrom fuel m' x by_ last body' n)
  repeatWhile : ∀ test test' body body' : Expr Span, test.map V.span = test'.map V.span →
    body.map V.span = body'.map V.span →
    Parallel V (fun _ _ => True) (repeatWhile fuel test body) (repeatWhile fuel test' body')
  evalAll : ∀ es es' : List (Expr Span), es.map (Expr.map V.span) = es'.map (Expr.map V.span) →
    Parallel V (List.Forall₂ (Value.Alike V)) (evalAll fuel es) (evalAll fuel es')
  apply : ∀ f f' vs vs' m m', (Datum.function f).Alike V (.function f') →
    List.Forall₂ (Value.Alike V) vs vs' → V.span m = V.span m' →
    Parallel V (Value.Alike V) (apply fuel f vs m) (apply fuel f' vs' m')

theorem parallel_var (fuel : Nat) {m m' : Span} (hm : V.span m = V.span m') (x : String) :
    Parallel V (Value.Alike V) (eval (fuel + 1) (.var m x)) (eval (fuel + 1) (.var m' x)) := by
  refine .bind (.lookup x) fun o o' ho => ?_
  cases ho with
  | some hv => exact .pure hv
  | none => exact .fail _ hm

theorem parallel_function (fuel : Nat) (m m' : Span) (x : Option String) (ps : List String)
    {body body' : Expr Span} (hb : body.map V.span = body'.map V.span) :
    Parallel V (Value.Alike V) (eval (fuel + 1) (.function m x ps body))
      (eval (fuel + 1) (.function m' x ps body')) := by
  refine .bind .get fun i i' hi => ?_
  refine .bind (.tag m m' (.closure x ps hb hi.environment)) fun f f' hf => ?_
  cases x with
  | none => exact .pure hf
  | some name => exact .bind (.define name hf) fun _ _ _ => .pure hf

section

variable {fuel : Nat} (h : Simulation V fuel)
include h

theorem parallel_choice {test test' body body' : Expr Span}
    (ht : test.map V.span = test'.map V.span) (hb : body.map V.span = body'.map V.span)
    {other other' : Eval Value} (ho : Parallel V (Value.Alike V) other other') :
    Parallel V (Value.Alike V)
      (do if (← eval fuel test).datum.isTrue then eval fuel body else other)
      (do if (← eval fuel test').datum.isTrue then eval fuel body' else other') := by
  refine .bind (h.eval test test' ht) fun v v' hv => ?_
  rw [Datum.Alike.isTrue hv]
  split
  · exact h.eval body body' hb
  · exact ho

theorem parallel_count (m m' : Span) (x : String) {a a' b b' body body' : Expr Span}
    {s s' : Option (Expr Span)} (ha : a.map V.span = a'.map V.span)
    (hb : b.map V.span = b'.map V.span)
    (hs : s.map (Expr.map V.span) = s'.map (Expr.map V.span))
    (hbody : body.map V.span = body'.map V.span) :
    Parallel V (Value.Alike V) (eval (fuel + 1) (.count m x a b s body))
      (eval (fuel + 1) (.count m' x a' b' s' body')) := by
  have hma := Expr.mark_eq_of_map_eq ha
  have hmb := Expr.mark_eq_of_map_eq hb
  refine .bind (h.eval a a' ha) fun u u' hu => .bind (.asBound _ hma hu) fun first first' hf => ?_
  refine .bind (h.eval b b' hb) fun v v' hv => .bind (.asBound _ hmb hv) fun last last' hl => ?_
  refine .bind (h.evalStep s s' hs) fun by_ by' hby => ?_
  subst hf hl hby
  refine .bind (h.countFrom m m' x by_ last body body' first hbody) fun _ _ _ => ?_
  exact .tag m m' (.number _)

theorem parallel_call {m m' : Span} (hm : V.span m = V.span m') {callee callee' : Expr Span}
    {args args' : List (Expr Span)} (hc : callee.map V.span = callee'.map V.span)
    (ha : args.map (Expr.map V.span) = args'.map (Expr.map V.span)) :
    Parallel V (Value.Alike V) (eval (fuel + 1) (.call m callee args))
      (eval (fuel + 1) (.call m' callee' args')) := by
  have hmc := Expr.mark_eq_of_map_eq hc
  refine .bind (h.eval callee callee' hc) fun u u' hu => ?_
  refine .bind (h.evalAll args args' ha) fun vs vs' hvs => ?_
  unfold Value.Alike at hu
  generalize u.datum = d at hu ⊢
  generalize u'.datum = d' at hu ⊢
  -- Both values are functions, or neither is.
  cases hu with
  | number n => exact .fail _ hmc
  | string s => exact .fail _ hmc
  | builtin b =>
    exact .bind (h.apply _ _ vs vs' m m' (.builtin b) hvs hm) fun v v' hv => .tag m m' hv
  | closure x ps hb he =>
    exact .bind (h.apply _ _ vs vs' m m' (.closure x ps hb he) hvs hm) fun v v' hv => .tag m m' hv

theorem parallel_eval (e e' : Expr Span) (he : e.map V.span = e'.map V.span) :
    Parallel V (Value.Alike V) (eval (fuel + 1) e) (eval (fuel + 1) e') := by
  cases e with
  | number m n =>
    obtain ⟨m', rfl, -⟩ := Expr.eq_number_of_map he
    exact .tag m m' (.number n)
  | string m s =>
    obtain ⟨m', rfl, -⟩ := Expr.eq_string_of_map he
    exact .tag m m' (.string s)
  | var m x =>
    obtain ⟨m', rfl, hm⟩ := Expr.eq_var_of_map he
    exact parallel_var fuel hm x
  | assign m x a =>
    obtain ⟨m', a', rfl, -, ha⟩ := Expr.eq_assign_of_map he
    refine .bind (h.eval a a' ha) fun v v' hv => ?_
    exact .bind (.define x hv) fun _ _ _ => .pure hv
  | binary m op a b =>
    obtain ⟨m', a', b', rfl, hm, ha, hb⟩ := Expr.eq_binary_of_map he
    refine .bind (h.eval a a' ha) fun u u' hu => .bind (h.eval b b' hb) fun v v' hv => ?_
    exact .tagResult hm (Expr.mark_eq_of_map_eq hb) (.binary op hu hv)
  | unary m op a =>
    obtain ⟨m', a', rfl, hm, ha⟩ := Expr.eq_unary_of_map he
    exact .bind (h.eval a a' ha) fun v v' hv => .tagResult hm hm (.unary op hv)
  | choose m test body arms =>
    obtain ⟨m', test', body', arms', rfl, -, ht, hb, has⟩ := Expr.eq_choose_of_map he
    exact parallel_choice h ht hb (h.evalArms m m' arms arms' has)
  | count m x a b s body =>
    obtain ⟨m', a', b', s', body', rfl, -, ha, hb, hs, hbody⟩ := Expr.eq_count_of_map he
    rw [Expr.mapStep_eq_map] at hs
    exact parallel_count h m m' x ha hb hs hbody
  | loop m test body =>
    obtain ⟨m', test', body', rfl, -, ht, hb⟩ := Expr.eq_loop_of_map he
    exact .bind (h.repeatWhile test test' body body' ht hb) fun _ _ _ => .tag m m' (.number _)
  | function m x ps body =>
    obtain ⟨m', body', rfl, -, hb⟩ := Expr.eq_function_of_map he
    exact parallel_function fuel m m' x ps hb
  | call m callee args =>
    obtain ⟨m', callee', args', rfl, hm, hc, ha⟩ := Expr.eq_call_of_map he
    rw [Expr.mapAll_eq_map] at ha
    exact parallel_call h hm hc ha

theorem parallel_evalArms (m m' : Span) (as as' : Arms Span)
    (has : as.map V.span = as'.map V.span) :
    Parallel V (Value.Alike V) (evalArms (fuel + 1) m as) (evalArms (fuel + 1) m' as') := by
  cases as with
  | done =>
    obtain rfl := Arms.eq_done_of_map has
    exact .tag m m' (.number _)
  | otherwise body =>
    obtain ⟨body', rfl, hb⟩ := Arms.eq_otherwise_of_map has
    exact h.eval body body' hb
  | elif test body arms =>
    obtain ⟨test', body', arms', rfl, ht, hb, harms⟩ := Arms.eq_elif_of_map has
    exact parallel_choice h ht hb (h.evalArms m m' arms arms' harms)

theorem parallel_evalStep (s s' : Option (Expr Span))
    (hs : s.map (Expr.map V.span) = s'.map (Expr.map V.span)) :
    Parallel V Eq (evalStep (fuel + 1) s) (evalStep (fuel + 1) s') := by
  cases s with
  | none =>
    obtain rfl := Option.map_eq_none_iff.mp hs.symm
    exact .pure rfl
  | some e =>
    obtain ⟨e', rfl, he⟩ := Option.map_eq_some_iff.mp hs.symm
    have hm := Expr.mark_eq_of_map_eq he.symm
    refine .bind (h.eval e e' he.symm) fun v v' hv => .bind (.asBound _ hm hv) fun n n' hn => ?_
    subst hn
    split
    · exact .fail _ hm
    · exact .pure rfl

theorem parallel_countFrom (m m' : Span) (x : String) (by_ last : Int64) (body body' : Expr Span)
    (n : Int64) (hb : body.map V.span = body'.map V.span) :
    Parallel V (fun _ _ => True) (countFrom (fuel + 1) m x by_ last body n)
      (countFrom (fuel + 1) m' x by_ last body' n) := by
  unfold countFrom
  split
  · refine .bind (.tag m m' (.number _)) fun v v' hv => .bind (.define x hv) fun _ _ _ => ?_
    refine .bind (h.eval body body' hb) fun _ _ _ => ?_
    split
    · exact h.countFrom m m' x by_ last body body' _ hb
    · exact .pure trivial
  · exact .pure trivial

theorem parallel_repeatWhile (test test' body body' : Expr Span)
    (ht : test.map V.span = test'.map V.span) (hb : body.map V.span = body'.map V.span) :
    Parallel V (fun _ _ => True) (repeatWhile (fuel + 1) test body)
      (repeatWhile (fuel + 1) test' body') := by
  refine .bind (h.eval test test' ht) fun v v' hv => ?_
  rw [Datum.Alike.isTrue hv]
  split
  · refine .bind (h.eval body body' hb) fun _ _ _ => ?_
    exact h.repeatWhile test test' body body' ht hb
  · exact .pure trivial

theorem parallel_evalAll (es es' : List (Expr Span))
    (hes : es.map (Expr.map V.span) = es'.map (Expr.map V.span)) :
    Parallel V (List.Forall₂ (Value.Alike V)) (evalAll (fuel + 1) es)
      (evalAll (fuel + 1) es') := by
  cases es with
  | nil =>
    obtain rfl := List.map_eq_nil_iff.mp hes.symm
    exact .pure .nil
  | cons e es =>
    obtain ⟨e', es', rfl, he, hes⟩ := List.map_eq_cons_iff.mp hes.symm
    refine .bind (h.eval e e' he.symm) fun v v' hv => ?_
    exact .bind (h.evalAll es es' hes.symm) fun vs vs' hvs => .pure (.cons hv hvs)

theorem parallel_apply (f f' : Function) (vs vs' : List Value) (m m' : Span)
    (hf : (Datum.function f).Alike V (.function f')) (hvs : List.Forall₂ (Value.Alike V) vs vs')
    (hm : V.span m = V.span m') :
    Parallel V (Value.Alike V) (apply (fuel + 1) f vs m) (apply (fuel + 1) f' vs' m') := by
  have hname : f.name = f'.name := by
    cases hf <;> rfl
  have harity : f.arity = f'.arity := by
    cases hf <;> rfl
  unfold apply
  rw [hvs.length_eq, hname, harity]
  split
  · exact .fail _ hm
  · refine .bind .get fun i i' hi => ?_
    cases hf with
    -- A built-in function runs inside the caller's environment.
    | builtin b =>
      refine .bind (.openScope hi.environment _ hvs) fun e e' he => ?_
      exact .runBuiltin b he _ _ hm
    | closure x ps hb he =>
      refine .bind (.openScope he _ hvs) fun e e' he => ?_
      exact .inFrame (h.eval _ _ hb) he _ _

end

theorem simulation (V : View μ) (fuel : Nat) : Simulation V fuel := by
  induction fuel with
  | zero => constructor <;> intros <;> exact .outOfFuel
  | succ fuel h =>
    exact {
      eval := parallel_eval h
      evalArms := parallel_evalArms h
      evalStep := parallel_evalStep h
      countFrom := parallel_countFrom h
      repeatWhile := parallel_repeatWhile h
      evalAll := parallel_evalAll h
      apply := parallel_apply h }

end Minibasic.Interpreter

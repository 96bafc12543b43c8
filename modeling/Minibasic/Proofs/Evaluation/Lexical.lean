import Minibasic.Proofs.Evaluation.Calls
import Minibasic.Proofs.Evaluation.Session
import Minibasic.Proofs.Evaluation.Simulation

/-!
Scoping is lexical. What a call does depends on the function, on its arguments, on the scopes that
these give access to and on the console; the caller's environment, the calls in progress and what
is bound in other scopes have no part in it.
-/

namespace Minibasic

/-- A call with this many arguments runs a body of the program. -/
def Function.RunsBody (n : Nat) : Function → Prop
  | .closure _ ps _ _ => n = ps.length
  | .builtin _ => False

/-- The scopes that a datum gives access to: those around the place where a function was made, and
all that the data bound in these give access to in turn. -/
inductive Store.Reaches (s : Store) : Datum → ScopeId → Prop
  | chain {x : Option String} {ps : List String} {body : Expr Span} {e : Environment}
      {id : ScopeId} : id ∈ e.chain → Reaches s (.function (.closure x ps body e)) id
  | bound {d : Datum} {a id : ScopeId} {x : String} {v : Value} :
      Reaches s d a → (s.scope a).get? x = some v → Reaches s v.datum id → Reaches s d id

/-- The scopes that a call of `f` with these arguments has access to. Of a built-in function these
are none, as it sees no more of its argument than the text. -/
def Store.Sees (s : Store) (f : Function) (vs : List Value) (id : ScopeId) : Prop :=
  match f with
  | .closure _ _ _ _ => s.Reaches (.function f) id ∨ ∃ v ∈ vs, s.Reaches v.datum id
  | .builtin _ => False

/-- The scopes that a call looks up or binds names in: those that it sees, and new ones. -/
def Store.Accessible (s : Store) (f : Function) (vs : List Value) (id : ScopeId) : Prop :=
  s.Sees f vs id ∨ s.size ≤ id

/-- The view that is open to the scopes in `R`, and hides no mark. -/
def View.within (R : ScopeId → Prop) : View Span where
  span := id
  scope a b := a = b ∧ R a
  paired := by
    intro a b c d hab hcd
    rw [hab.1, hcd.1]

variable {R : ScopeId → Prop}

/-- Under a view that hides nothing, data are alike only if they are equal. -/
theorem Datum.Alike.eq {d d' : Datum} (h : d.Alike (.within R) d') : d = d' := by
  cases h with
  | number n => rfl
  | string s => rfl
  | builtin b => rfl
  | @closure x ps body body' e e' hb he =>
    have hbody : body = body' := by
      have hb : body.map id = body'.map id := hb
      rwa [Expr.map_id, Expr.map_id] at hb
    have hchain : e.chain = e'.chain := by
      have he : List.Forall₂ (· = ·) e.chain e'.chain := List.Forall₂.imp (fun _ _ h => h.1) he
      rwa [List.forall₂_eq_eq_eq] at he
    obtain ⟨scope, outer⟩ := e
    obtain ⟨scope', outer'⟩ := e'
    cases hchain
    rw [hbody]

/-- A datum is alike to itself if it gives access to no hidden scope. -/
theorem Datum.alike_within {s : Store} {d : Datum} (h : ∀ id, s.Reaches d id → R id) :
    d.Alike (.within R) d := by
  cases d with
  | number n => exact .number n
  | string s => exact .string s
  | function f =>
    cases f with
    | builtin b => exact .builtin b
    | closure x ps body e =>
      refine .closure x ps rfl (List.forall₂_same.mpr fun id hid => ⟨rfl, ?_⟩)
      exact h id (.chain hid)

/-- Stores that agree on the scopes in `R` are alike if these hold no access to others. -/
theorem Store.alike_within {s s' : Store} (hsize : s.size = s'.size)
    (hscope : ∀ id, R id → s.scope id = s'.scope id) (hnew : ∀ id, s.size ≤ id → R id)
    (hclosed : ∀ a, R a → ∀ x v, (s.scope a).get? x = some v → ∀ id, s.Reaches v.datum id → R id) :
    s.Alike (.within R) s' where
  get? := by
    intro a b hab x
    obtain ⟨rfl, ha⟩ := hab
    rw [← hscope a ha]
    cases hv : (s.scope a).get? x with
    | none => exact .none
    | some v => exact .some (Datum.alike_within (hclosed a ha x v hv))
  fresh k := by
    rw [← hsize]
    exact ⟨rfl, hnew _ (Nat.le_add_right _ _)⟩

theorem Store.scope_define_congr {s s' : Store} {id : ScopeId} (hsize : s.size = s'.size)
    (h : s.scope id = s'.scope id) (a : ScopeId) (x : String) (v : Value) :
    (s.define a x v).scope id = (s'.define a x v).scope id := by
  rw [scope_define, scope_define, hsize]
  by_cases hid : id = a
  · subst hid
    rw [h]
  · rw [if_neg fun ha => hid ha.1, if_neg fun ha => hid ha.1, h]

theorem Store.scope_defineAll_congr {s s' : Store} {id : ScopeId} (hsize : s.size = s'.size)
    (h : s.scope id = s'.scope id) (a : ScopeId) (names : List String) (vs : List Value) :
    (s.defineAll a names vs).scope id = (s'.defineAll a names vs).scope id := by
  unfold defineAll
  induction names.zip vs generalizing s s' with
  | nil => exact h
  | cons b bs ih =>
    refine ih ?_ (scope_define_congr hsize h a b.1 b.2)
    rw [size_define, size_define, hsize]

namespace Interpreter

/-- The console, the number of scopes, and the data bound in the scopes in `S` are the same. -/
structure SameWorld (S : ScopeId → Prop) (j j' : Interpreter) : Prop where
  console : j.console = j'.console
  size : j.store.size = j'.store.size
  datum : ∀ id, S id → ∀ x,
    ((j.store.scope id).get? x).map Value.datum = ((j'.store.scope id).get? x).map Value.datum

/-- The ends of a call of `f` that is made at `m` and of one that is made at `m'`, in states that
need not be in the same frame: neither has an end, or they have the same result. A failure has the
same cause, and it is in the same place if it arises in the body of the function. -/
inductive SameCall (S : ScopeId → Prop) (f : Function) (vs : List Value) (m m' : Span) :
    Option (Except Diagnostic Value × Interpreter) →
    Option (Except Diagnostic Value × Interpreter) → Prop
  | none : SameCall S f vs m m' none none
  | value {v v' : Value} {j j' : Interpreter} : v.datum = v'.datum → SameWorld S j j' →
      SameCall S f vs m m' (some (.ok v, j)) (some (.ok v', j'))
  | failure {d d' : Diagnostic} {j j' : Interpreter} : d.cause = d'.cause →
      (f.RunsBody vs.length → d.span = d'.span) →
      (¬f.RunsBody vs.length → d.span = m ∧ d'.span = m') → SameWorld S j j' →
      SameCall S f vs m m' (some (.error d, j)) (some (.error d', j'))

theorem SameWorld.of_alike {j j' : Interpreter} (hs : j.store.Alike (.within R) j'.store)
    (hc : j.console = j'.console) : SameWorld R j j' where
  console := hc
  size := (hs.fresh 0).1
  datum id hid x := by
    have hx := hs.get? ⟨rfl, hid⟩ x
    generalize (j.store.scope id).get? x = o at hx ⊢
    generalize (j'.store.scope id).get? x = o' at hx ⊢
    cases hx with
    | some hv => exact congrArg some hv.eq
    | none => rfl

variable {i i' : Interpreter} {vs : List Value}

/-- The body of a function runs in states that are alike whatever frames it is called from. -/
theorem entered_alike (hs : i.store.Alike (.within R) i'.store) (hc : i.console = i'.console)
    {closed : Environment} (he : closed.Alike (.within R) closed)
    (hvs : List.Forall₂ (Value.Alike (.within R)) vs vs) (x : Option String) (ps : List String)
    (m m' : Span) :
    (i.entered x ps closed vs m).Alike (.within R) (i'.entered x ps closed vs m') where
  environment := .cons hs.fresh_zero he
  store := hs.grow.defineAll hs.fresh_zero ps hvs
  console := hc

theorem sameCall_closure (hs : i.store.Alike (.within R) i'.store) (hc : i.console = i'.console)
    {closed : Environment} (he : closed.Alike (.within R) closed)
    (hvs : List.Forall₂ (Value.Alike (.within R)) vs vs) {ps : List String}
    (hlen : vs.length = ps.length) (fuel : Nat) (x : Option String) (body : Expr Span)
    (m m' : Span) :
    SameCall R (.closure x ps body closed) vs m m'
      (apply (fuel + 1) (.closure x ps body closed) vs m i)
      (apply (fuel + 1) (.closure x ps body closed) vs m' i') := by
  have hbody := (simulation (.within R) fuel).eval body body rfl _ _
    (entered_alike hs hc he hvs x ps m m')
  rw [apply_closure hlen, apply_closure hlen]
  generalize eval fuel body (i.entered x ps closed vs m) = o at hbody ⊢
  generalize eval fuel body (i'.entered x ps closed vs m') = o' at hbody ⊢
  cases hbody with
  | none => exact .none
  | value hv hj => exact .value hv.eq (.of_alike hj.store hj.console)
  | failure hd hj =>
    exact .failure hd.cause (fun _ => hd.span) (absurd hlen) (.of_alike hj.store hj.console)

/-- A built-in function has no body, and its own scope binds the same in all callers. -/
theorem sameCall_builtin (hsize : i.store.size = i'.store.size) (hc : i.console = i'.console)
    (hs : ∀ id, R id → i.store.scope id = i'.store.scope id) {b : Builtin}
    (hlen : vs.length = b.params.length) (fuel : Nat) (m m' : Span) :
    SameCall R (.builtin b) vs m m' (apply (fuel + 1) (.builtin b) vs m i)
      (apply (fuel + 1) (.builtin b) vs m' i') := by
  obtain ⟨p, hp⟩ : ∃ p, b.run (fun _ => vs.head?.map Value.datum) i.console = p := ⟨_, rfl⟩
  have hp' : b.run (fun _ => vs.head?.map Value.datum) i'.console = p := hc ▸ hp
  have hworld : SameWorld R
      { i with store := (i.opened i.environment b.params vs).store, console := p.2 }
      { i' with store := (i'.opened i'.environment b.params vs).store, console := p.2 } := by
    refine ⟨rfl, by rw [size_opened, size_opened, hsize], fun id hid x => ?_⟩
    have hscope : (i.opened i.environment b.params vs).store.scope id =
        (i'.opened i'.environment b.params vs).store.scope id := by
      have hfresh : i.store.fresh = i'.store.fresh := hsize
      unfold opened
      rw [hfresh]
      refine Store.scope_defineAll_congr ?_ ?_ _ _ _
      · rw [Store.size_grow, Store.size_grow, hsize]
      · rw [Store.scope_grow, Store.scope_grow, hs id hid]
    exact congrArg (fun s : Scope => (s.get? x).map Value.datum) hscope
  rw [apply_builtin hlen fuel m i hp, apply_builtin hlen fuel m' i' hp']
  cases p.1 with
  | ok d => exact .value rfl hworld
  | error cause => exact .failure rfl False.elim (fun _ => ⟨rfl, rfl⟩) hworld

theorem sameCall_arity (hsize : i.store.size = i'.store.size) (hc : i.console = i'.console)
    (hs : ∀ id, R id → i.store.scope id = i'.store.scope id) {f : Function}
    (hlen : vs.length ≠ f.arity) (fuel : Nat) (m m' : Span) :
    SameCall R f vs m m' (apply (fuel + 1) f vs m i) (apply (fuel + 1) f vs m' i') := by
  have hbody : ¬f.RunsBody vs.length := by
    cases f with
    | closure x ps body closed => exact hlen
    | builtin b => exact id
  have hworld : SameWorld R i i' := ⟨hc, hsize, fun id hid x => by rw [hs id hid]⟩
  rw [apply_arity hlen, apply_arity hlen]
  exact .failure rfl (fun h => absurd h hbody) (fun _ => ⟨rfl, rfl⟩) hworld

/-- In states that agree on the scopes that a call sees it has the same outcome. -/
theorem sameCall (hsize : i.store.size = i'.store.size) (hc : i.console = i'.console)
    (f : Function) (hs : ∀ id, i.store.Sees f vs id → i.store.scope id = i'.store.scope id)
    (fuel : Nat) (m m' : Span) :
    SameCall (i.store.Accessible f vs) f vs m m' (apply fuel f vs m i) (apply fuel f vs m' i') := by
  cases fuel with
  | zero => exact .none
  | succ fuel =>
    have hagree : ∀ id, i.store.Accessible f vs id → i.store.scope id = i'.store.scope id := by
      intro id hid
      rcases hid with hid | hid
      · exact hs id hid
      · rw [Store.scope_of_size_le _ hid, Store.scope_of_size_le _ (hsize ▸ hid)]
    by_cases hlen : vs.length = f.arity
    · cases f with
      | closure x ps body closed =>
        let f : Function := .closure x ps body closed
        have hf : ∀ id, i.store.Reaches (.function f) id → i.store.Accessible f vs id :=
          fun id hid => Or.inl (Or.inl hid)
        have harg : ∀ v ∈ vs, ∀ id, i.store.Reaches v.datum id → i.store.Accessible f vs id :=
          fun v hv id hid => Or.inl (Or.inr ⟨v, hv, hid⟩)
        have hclosed : closed.Alike (.within (i.store.Accessible f vs)) closed :=
          List.forall₂_same.mpr fun id hid => ⟨rfl, hf id (.chain hid)⟩
        have hargs : List.Forall₂ (Value.Alike (.within (i.store.Accessible f vs))) vs vs :=
          List.forall₂_same.mpr fun v hv => Datum.alike_within (harg v hv)
        have hstore : i.store.Alike (.within (i.store.Accessible f vs)) i'.store := by
          refine Store.alike_within hsize hagree (fun _ hid => Or.inr hid) ?_
          -- What is bound in a scope that can be seen gives access to such scopes only.
          intro a ha y v hv id hid
          rcases ha with (ha | ⟨u, hu, ha⟩) | ha
          · exact hf id (.bound ha hv hid)
          · exact harg u hu id (.bound ha hv hid)
          · rw [Store.scope_of_size_le _ ha] at hv
            cases hv
        exact sameCall_closure hstore hc hclosed hargs hlen fuel x body m m'
      | builtin b => exact sameCall_builtin hsize hc hagree hlen fuel m m'
    · exact sameCall_arity hsize hc hagree hlen fuel m m'

/-- A call leaves all scopes that there were, so that stores that were the same stay so. -/
theorem SameCall.shared {S : ScopeId → Prop} {f : Function} {fuel : Nat} {m m' : Span}
    (h : SameCall S f vs m m' (apply fuel f vs m i) (apply fuel f vs m' i'))
    (hs : i.store = i'.store) (hnew : ∀ id, i.store.size ≤ id → S id) :
    SameCall (fun _ => True) f vs m m' (apply fuel f vs m i) (apply fuel f vs m' i') := by
  have hworld : ∀ r j r' j', apply fuel f vs m i = some (r, j) →
      apply fuel f vs m' i' = some (r', j') → SameWorld S j j' →
      SameWorld (fun _ => True) j j' := by
    intro r j r' j' he he' hw
    refine ⟨hw.console, hw.size, fun id _ x => ?_⟩
    by_cases hid : id < i.store.size
    · rw [scope_apply he id hid, scope_apply he' id (hs ▸ hid), hs]
    · exact hw.datum id (hnew id (Nat.le_of_not_lt hid)) x
  generalize ho : apply fuel f vs m i = o at h hworld ⊢
  generalize ho' : apply fuel f vs m' i' = o' at h hworld ⊢
  cases h with
  | none => exact .none
  | value hv hw => exact .value hv (hworld _ _ _ _ rfl rfl hw)
  | failure hc hb hn hw => exact .failure hc hb hn (hworld _ _ _ _ rfl rfl hw)

/-- Scoping is lexical. From two states with the same scopes and the same console, but with any
environments, in any calls and at any call nodes, a call has the same outcome: the same datum, or a
failure with the same cause, and the same scopes and console after it. Nor do the scopes matter that
the function has no access to, whatever a caller has bound in them. -/
theorem call_lexical (fuel : Nat) (f : Function) (vs : List Value) (m m' : Span)
    (i i' : Interpreter) (hc : i.console = i'.console) :
    (i.store = i'.store →
      SameCall (fun _ => True) f vs m m' (apply fuel f vs m i) (apply fuel f vs m' i')) ∧
    (i.store.size = i'.store.size →
      (∀ id, i.store.Sees f vs id → i.store.scope id = i'.store.scope id) →
      SameCall (i.store.Accessible f vs) f vs m m' (apply fuel f vs m i)
        (apply fuel f vs m' i')) := by
  constructor
  · intro hs
    have hscope : ∀ id, i.store.Sees f vs id → i.store.scope id = i'.store.scope id :=
      fun id _ => congrArg (Store.scope · id) hs
    exact (sameCall (congrArg Store.size hs) hc f hscope fuel m m').shared hs fun id => .inr
  · intro hsize hs
    exact sameCall hsize hc f hs fuel m m'

/-- A function that was made where `y` is 1 gives 1 also if its caller has bound `y` to 50, and what
a caller has bound to `value` is not what `print` writes. -/
theorem call_lexical_callers :
    let s := ((global []).store.define 0 "y" { datum := .int 1 }).grow.define 1 "y"
      { datum := .int 50 }
    let i := new ⟨0, []⟩ s []
    let i' : Interpreter :=
      { new ⟨1, [0]⟩ s [] with context := .call "caller" default rootContext }
    let f : Function := .closure (some "get") [] (.var default "y") ⟨0, []⟩
    let k : Interpreter :=
      { i' with store := s.define 1 Builtin.argumentName { datum := .int 5 } }
    let vs : List Value := [{ datum := .string "a" }]
    SameCall (fun _ => True) f [] default default (apply 2 f [] default i)
        (apply 2 f [] default i') ∧
      (∃ v j, apply 2 f [] default i' = some (.ok v, j) ∧ v.datum = .int 1) ∧
      SameCall (i.store.Accessible (.builtin .print) vs) (.builtin .print) vs default default
        (apply 1 (.builtin .print) vs default i) (apply 1 (.builtin .print) vs default k) ∧
      ∃ v j, apply 1 (.builtin .print) vs default k = some (.ok v, j) ∧
        j.console.output = #["a"] := by
  intro s i i' f k vs
  have hget := (call_lexical 2 f [] default default i i' rfl).1 rfl
  have hprint := (call_lexical 1 (.builtin .print) vs default default i k rfl).2
    (Store.size_define _ _ _ _).symm (fun _ hid => False.elim hid)
  exact ⟨hget, ⟨_, _, rfl, rfl⟩, hprint, _, _, rfl, rfl⟩

end Interpreter

end Minibasic

import Minibasic.Proofs.Evaluation.Parents

/-!
Sessions: programs that run one after the other in one interpreter. In all states that a session
comes to, evaluation writes no scope but the current one, and scopes keep their parents.
-/

namespace Minibasic.Interpreter

/-- A state that a session comes to, at the top or inside of calls, and values that evaluation has
in hand there. What the console holds is up to the world outside. -/
inductive Reachable : Interpreter → List Value → Prop where
  | global (input : List InputLine) : Reachable (global input) []
  | empty (input : List InputLine) :
      Reachable (new Store.empty.newRoot.1 Store.empty.newRoot.2 input) []
  | console {i : Interpreter} {vs : List Value} (console : Console) :
      Reachable i vs → Reachable { i with console } vs
  | value {i i' : Interpreter} {vs : List Value} {fuel : Nat} {e : Expr Span} {v : Value} :
      Reachable i vs → eval fuel e i = some (.ok v, i') → Reachable i' (v :: vs)
  | failure {i i' : Interpreter} {vs : List Value} {fuel : Nat} {e : Expr Span}
      {d : Diagnostic} :
      Reachable i vs → eval fuel e i = some (.error d, i') → Reachable i' vs
  | define {i : Interpreter} {vs : List Value} {v : Value} (x : String) :
      Reachable i vs → (v ∈ vs ∨ ∃ n, v.datum = .number n) →
      Reachable { i with store := i.store.define i.environment.scope x v } vs
  | enter {i : Interpreter} {vs args : List Value} {v : Value} {x : Option String}
      {ps : List String} {body : Expr Span} {closed : Environment} (c : Context) :
      Reachable i vs → v ∈ vs → v.datum = .function (.closure x ps body closed) → args ⊆ vs →
      Reachable { i.opened closed ps args with context := c } vs

/-- The table has the parents of all scopes: the state and the values in hand follow it. -/
def Agreed (w : Parents) (i : Interpreter) (vs : List Value) : Prop :=
  i.Ordered w ∧ ∀ v ∈ vs, Sound w v

theorem Agreed.of_extends {w : Parents} {i i' : Interpreter} {vs : List Value} {m : Eval Value}
    {r : Except Diagnostic Value} (h : Agreed w i vs) (hm : Extends w m Sound)
    (he : m i = some (r, i')) :
    ∃ w', w <+: w' ∧ Agreed w' i' vs ∧ ∀ v, r = .ok v → Sound w' v := by
  obtain ⟨w', hw, hi, hv⟩ := hm i h.1 r i' he
  exact ⟨w', hw, ⟨hi, fun v hvs => (h.2 v hvs).mono hw⟩, hv⟩

/-- Evaluation changes the parent of no scope that there is. -/
theorem Agreed.eval {w : Parents} {i i' : Interpreter} {vs : List Value} {fuel : Nat}
    {e : Expr Span} {r : Except Diagnostic Value} (h : Agreed w i vs)
    (he : eval fuel e i = some (r, i')) :
    ∃ w', w <+: w' ∧ Agreed w' i' vs ∧ ∀ v, r = .ok v → Sound w' v :=
  h.of_extends ((ordering fuel).eval w e) he

/-- Nor does a call of a function in hand. -/
theorem Agreed.apply {w : Parents} {i i' : Interpreter} {vs args : List Value} {fuel : Nat}
    {v : Value} {f : Function} {m : Span} {r : Except Diagnostic Value} (h : Agreed w i vs)
    (hv : v ∈ vs) (hf : v.datum = .function f) (hargs : args ⊆ vs)
    (ha : apply fuel f args m i = some (r, i')) :
    ∃ w', w <+: w' ∧ Agreed w' i' vs ∧ ∀ v, r = .ok v → Sound w' v := by
  have hs := h.2 v hv
  rw [Sound, hf] at hs
  exact h.of_extends ((ordering fuel).apply w f args m hs fun u hu => h.2 u (hargs hu)) ha

/-- The value of an expression follows the table that its evaluation comes to. -/
theorem Agreed.value {w : Parents} {i i' : Interpreter} {vs : List Value} {fuel : Nat}
    {e : Expr Span} {v : Value} (h : Agreed w i vs)
    (he : Interpreter.eval fuel e i = some (.ok v, i')) :
    ∃ w', w <+: w' ∧ Agreed w' i' (v :: vs) := by
  obtain ⟨w', hw, hi, hv⟩ := h.eval he
  exact ⟨w', hw, hi.1, List.forall_mem_cons.mpr ⟨hv v rfl, hi.2⟩⟩

theorem Agreed.define {w : Parents} {i : Interpreter} {vs : List Value} {v : Value}
    (h : Agreed w i vs) (hv : Sound w v) (x : String) :
    Agreed w { i with store := i.store.define i.environment.scope x v } vs :=
  ⟨h.1.define hv _ x, h.2⟩

/-- The scope of a call extends the table. -/
theorem Agreed.enter {w : Parents} {i : Interpreter} {vs args : List Value} {v : Value}
    {x : Option String} {ps : List String} {body : Expr Span} {closed : Environment}
    (h : Agreed w i vs) (hv : v ∈ vs) (hf : v.datum = .function (.closure x ps body closed))
    (hargs : args ⊆ vs) (c : Context) :
    Agreed (w ++ [some closed.scope]) { i.opened closed ps args with context := c } vs := by
  have hclosed : w.Ranks closed.chain := by
    have hs := h.2 v hv
    rw [Sound, hf] at hs
    exact hs
  have ho := h.1.opened hclosed (fun u hu => h.2 u (hargs hu)) ps
  exact ⟨⟨ho.size, ho.environment, ho.store⟩, fun u hu => (h.2 u hu).mono ⟨_, rfl⟩⟩

/-- A store of one scope that binds no functions of the program. -/
theorem agreed_new {s : Store} (input : List InputLine) (hsize : s.size = 1)
    (hs : s.Follows [none]) : Agreed [none] (new ⟨0, []⟩ s input) [] :=
  ⟨⟨hsize.symm, rfl, hs⟩, fun v hv => by cases hv⟩

theorem Reachable.agreed {i : Interpreter} {vs : List Value} (h : Reachable i vs) :
    ∃ w, Agreed w i vs := by
  induction h with
  | global input =>
    have hs := Store.binds_newGlobal (P := Datum.Follows [none]) (fun _ => trivial) fun _ => trivial
    exact ⟨[none], agreed_new input (Store.size_foldl_define _ _ _) hs⟩
  | empty input => exact ⟨[none], agreed_new input rfl Store.Binds.empty.grow⟩
  | console console _ ih =>
    obtain ⟨w, hi, hvs⟩ := ih
    exact ⟨w, ⟨hi.size, hi.environment, hi.store⟩, hvs⟩
  | value _ he ih =>
    obtain ⟨w, h⟩ := ih
    obtain ⟨w', -, h'⟩ := h.value he
    exact ⟨w', h'⟩
  | failure _ he ih =>
    obtain ⟨w, h⟩ := ih
    obtain ⟨w', -, h', -⟩ := h.eval he
    exact ⟨w', h'⟩
  | @define i vs v x _ hv ih =>
    obtain ⟨w, h⟩ := ih
    have hs : Sound w v := by
      rcases hv with hv | ⟨n, hn⟩
      · exact h.2 v hv
      · rw [Sound, hn]
        trivial
    exact ⟨w, h.define hs x⟩
  | enter c _ hv hf hargs ih =>
    obtain ⟨w, h⟩ := ih
    exact ⟨_, h.enter hv hf hargs c⟩

/-- The current scope exists. -/
theorem Ordered.scope_lt {w : Parents} {i : Interpreter} (h : i.Ordered w) :
    i.environment.scope < i.store.size := by
  have hlt := h.environment.head_lt
  rw [h.size] at hlt
  exact hlt

theorem recorded_evalSource (fuel : Nat) (s : Source) : Recorded (evalSource fuel s) :=
  .bind (.readOnly fun _ => ⟨_, rfl⟩) (recording fuel).eval

/-- The programs of a session, with the history of all of them. -/
inductive Session : Interpreter → List Effect → Interpreter → Prop where
  | done {i : Interpreter} : Session i [] i
  | program {i j i' : Interpreter} {console : Console} {fuel : Nat} {s : Source}
      {h h' : List Effect} {r : Except Diagnostic Value} :
      Performs (evalSource fuel s) { i with console } h r j → Session j h' i' →
      Session i (h ++ h') i'

theorem Session.orderly {i i' : Interpreter} {h : List Effect} (s : Session i h i') :
    Orderly i h i' := by
  induction s with
  | done => exact .refl _
  | program p _ ih => exact p.orderly.of_console.trans ih

theorem framed_eval {fuel : Nat} {e : Expr Span} {i i' : Interpreter}
    {r : Except Diagnostic Value} (h : eval fuel e i = some (r, i')) : Framed i i' := by
  obtain ⟨_, p⟩ := (recording fuel).eval e i r i' h
  exact p.orderly.framed

/-- A call changes no scope that there is when its arguments are known. -/
theorem scope_apply {fuel : Nat} {f : Function} {args : List Value} {m : Span}
    {i i' : Interpreter} {r : Except Diagnostic Value} (h : apply fuel f args m i = some (r, i')) :
    ∀ id < i.store.size, i'.store.scope id = i.store.scope id := by
  cases fuel with
  | zero => cases h
  | succ fuel =>
    unfold apply at h
    by_cases harity : args.length ≠ f.arity
    · rw [if_pos harity] at h
      cases h
      exact fun _ _ => rfl
    · rw [if_neg harity, bind_apply] at h
      cases f with
      | closure x ps body closed =>
        change (openScope closed ps args >>= fun e => inFrame e _ (eval fuel body)) i = _ at h
        rw [openScope_inFrame] at h
        split at h
        next r' j hbody =>
          cases h
          exact (framed_eval hbody).of_opened.2
        next => cases h
      | builtin b =>
        cases h
        exact fun id hid => scope_opened i i.environment b.params args hid

/-- Evaluation writes no scope that there was before but the current one, which loses no name, and
a call writes none at all. No scope gets another parent. Every program of a session has a history,
and in that of the whole session nothing is bound in a scope that its call has left, so that this
scope stays as it was left. -/
theorem evaluation_frame {i : Interpreter} {vs : List Value} (hi : Reachable i vs) :
    (∀ fuel e r i', eval fuel e i = some (r, i') → Framed i i') ∧
    (∀ fuel f args m r i', apply fuel f args m i = some (r, i') →
      ∀ id < i.store.size, i'.store.scope id = i.store.scope id) ∧
    (∃ w, Agreed w i vs) ∧
    (∀ w, Agreed w i vs →
      (∀ fuel e r i', eval fuel e i = some (r, i') →
        ∃ w', w <+: w' ∧ Agreed w' i' vs ∧ ∀ v, r = .ok v → Sound w' v) ∧
      ∀ fuel v f args m r i', v ∈ vs → v.datum = .function f → args ⊆ vs →
        apply fuel f args m i = some (r, i') →
          ∃ w', w <+: w' ∧ Agreed w' i' vs ∧ ∀ v, r = .ok v → Sound w' v) ∧
    (∀ fuel s j r j', evalSource fuel s j = some (r, j') ↔
      ∃ h, Performs (evalSource fuel s) j h r j') ∧
    ∀ h i', Session i h i' →
      h.Pairwise Effect.Spares ∧ ∀ s left, .leave s left ∈ h → i'.store.scope s = left := by
  obtain ⟨w, hw⟩ := hi.agreed
  have hlt := hw.1.scope_lt
  refine ⟨fun _ _ _ _ h => framed_eval h, fun _ _ _ _ _ _ h => scope_apply h, ⟨w, hw⟩,
    fun w hw => ⟨fun _ _ _ _ h => hw.eval h, fun _ _ _ _ _ _ _ hv hf ha h => hw.apply hv hf ha h⟩,
    ?_, ?_⟩
  · intro fuel s j r j'
    constructor
    · exact recorded_evalSource fuel s j r j'
    · intro hp
      obtain ⟨h, p⟩ := hp
      exact p.apply_eq
  · intro h i' s
    have ho := s.orderly
    exact ⟨ho.spares hlt, ho.scope_of_leave hlt⟩

/-- The call `(FUN (a) -> VAR b = a)(1)` leaves the predefined names alone. -/
theorem evaluation_frame_call :
    let body : Expr Span := .assign default "b" (.var default "a")
    let e : Expr Span :=
      .call default (.function default none ["a"] body) [.number default (.int 1)]
    ∃ r i', eval 5 e (global []) = some (r, i') ∧ Framed (global []) i' := by
  intro body e
  have hi : Reachable (global []) [] := .global []
  exact ⟨_, _, rfl, (evaluation_frame hi).1 5 e _ _ rfl⟩

end Minibasic.Interpreter

import Minibasic.Proofs.Evaluation.Calls
import Minibasic.Proofs.Expr.Children
import Minibasic.Proofs.Value.Plain

/-!
Invariants of evaluation. An invariant has a law for each thing that evaluation does to a state:
names are bound and looked up, functions are made and called. Evaluation keeps whatever obeys these
laws.
-/

namespace Minibasic.Interpreter

/-- What holds of states, of all data that they hold, and of the expressions that are evaluated in
them. It may refer to a world, and goes over to a later one where evaluation needs it. -/
structure Invariant (W : Type) where
  Later : W → W → Prop
  State : W → Interpreter → Prop
  Data : W → Datum → Prop
  Admits : W → Expr Span → Prop
  refl : ∀ w, Later w w
  trans : ∀ {w w' w''}, Later w w' → Later w' w'' → Later w w''
  data_mono : ∀ {w w' d}, Later w w' → Data w d → Data w' d
  admits_mono : ∀ {w w' e}, Later w w' → Admits w e → Admits w' e
  child : ∀ {w e c}, Admits w e → c ∈ e.children → Admits w c
  plain : ∀ {w d}, d.Plain → Data w d
  builtin : ∀ w b, Data w (.function (.builtin b))
  bound : ∀ {w i x v}, State w i → i.store.lookup i.environment x = some v → Data w v.datum
  define : ∀ {w i x v}, State w i → Data w v.datum →
    State w { i with store := i.store.define i.environment.scope x v }
  closure : ∀ {w i m x ps body}, State w i → Admits w (.function m x ps body) →
    Data w (.function (.closure x ps body i.environment))
  /-- The body of a function runs in a world of its own, from which there is a way back. -/
  enter : ∀ {w i x ps body e vs}, State w i → Data w (.function (.closure x ps body e)) →
    (∀ v ∈ vs, Data w v.datum) → ∀ c, ∃ w', State w' { i.opened e ps vs with context := c } ∧
      Admits w' body ∧ ∀ w'' j, Later w' w'' → State w'' j → ∃ w₁, Later w w₁ ∧
        State w₁ { j with environment := i.environment, context := i.context } ∧
        ∀ d, Data w'' d → Data w₁ d
  argument : ∀ {w i vs}, State w i → (∀ v ∈ vs, Data w v.datum) → ∀ ps console, ∃ w', Later w w' ∧
    State w' { i with store := (i.opened i.environment ps vs).store, console }

variable {W α β : Type} {I : Invariant W} {w : W}

def Invariant.Sound (I : Invariant W) (w : W) (v : Value) : Prop := I.Data w v.datum

/-- In a state of the world `w` the computation keeps the invariant, and `Q` holds of its result in
the world that it comes to. -/
def Invariant.Keeps (I : Invariant W) (w : W) (m : Eval α) (Q : W → α → Prop) : Prop :=
  ∀ i, I.State w i → ∀ r j, m i = some (r, j) →
    ∃ w', I.Later w w' ∧ I.State w' j ∧ ∀ a, r = .ok a → Q w' a

namespace Invariant.Keeps

theorem bind {m : Eval α} {next : α → Eval β} {Q : W → α → Prop} {Q' : W → β → Prop}
    (hm : I.Keeps w m Q) (hn : ∀ w' a, I.Later w w' → Q w' a → I.Keeps w' (next a) Q') :
    I.Keeps w (m >>= next) Q' := by
  intro i hi r j h
  rw [bind_apply] at h
  cases hmi : m i with
  | none =>
    rw [hmi] at h
    cases h
  | some p =>
    obtain ⟨rm, k⟩ := p
    obtain ⟨w₁, hw₁, hk, hq⟩ := hm i hi rm k hmi
    rw [hmi] at h
    cases rm with
    | ok a =>
      obtain ⟨w₂, hw₂, hj, hq'⟩ := hn w₁ a hw₁ (hq a rfl) k hk r j h
      exact ⟨w₂, I.trans hw₁ hw₂, hj, hq'⟩
    | error d =>
      cases h
      exact ⟨w₁, hw₁, hk, nofun⟩

/-- A computation that changes nothing stays in its world. -/
theorem of_readOnly {m : Eval α} {Q : W → α → Prop} (hm : ReadOnly m)
    (hQ : ∀ i, I.State w i → ∀ a j, m i = some (.ok a, j) → Q w a) : I.Keeps w m Q := by
  intro i hi r j h
  obtain rfl : j = i := hm.eq h
  refine ⟨w, I.refl w, hi, fun a ha => ?_⟩
  rw [ha] at h
  exact hQ _ hi a _ h

theorem outOfFuel {Q : W → α → Prop} : I.Keeps w outOfFuel Q := by
  intro i _ r j h
  cases h

theorem pure {a : α} {Q : W → α → Prop} (ha : Q w a) : I.Keeps w (pure a) Q := by
  refine of_readOnly (readOnly_pure a) fun i _ b j h => ?_
  cases h
  exact ha

theorem fail {Q : W → α → Prop} (c : Cause) (s : Span) : I.Keeps w (fail c s) Q := by
  refine of_readOnly (readOnly_fail c s) fun i _ b j h => ?_
  cases h

theorem tag (s : Span) {d : Datum} (hd : I.Data w d) : I.Keeps w (tag s d) I.Sound := by
  refine of_readOnly (readOnly_tag s d) fun i _ b j h => ?_
  cases h
  exact hd

theorem tagResult (s t : Span) {r : Except Cause Datum} (hr : ∀ d, r = .ok d → I.Data w d) :
    I.Keeps w (tagResult s t r) I.Sound := by
  unfold Interpreter.tagResult
  split
  next d => exact .tag s (hr d rfl)
  · exact .fail _ _
  · exact .fail _ _

theorem asBound (b : Bound) (s : Span) (v : Value) :
    I.Keeps w (asBound b s v) fun _ _ => True :=
  of_readOnly (readOnly_asBound b s v) fun _ _ _ _ _ => trivial

theorem lookup (x : String) :
    I.Keeps w (lookup x) fun w o => ∀ v, o = some v → I.Sound w v := by
  refine of_readOnly (readOnly_lookup x) fun i hi o j h v hv => ?_
  cases h
  exact I.bound hi hv

theorem state : I.Keeps w get I.State := by
  refine of_readOnly readOnly_get fun i hi a j h => ?_
  cases h
  exact hi

theorem define (x : String) {v : Value} (hv : I.Sound w v) :
    I.Keeps w (Interpreter.define x v) fun _ _ => True := by
  intro i hi r j h
  cases h
  exact ⟨w, I.refl w, I.define hi hv, fun _ _ => trivial⟩

theorem call {body : Expr Span} {fuel : Nat} {x : Option String} {ps : List String}
    {e : Environment} {vs : List Value} (hf : I.Data w (.function (.closure x ps body e)))
    (hvs : ∀ v ∈ vs, I.Sound w v)
    (hbody : ∀ w', I.Admits w' body → I.Keeps w' (eval fuel body) I.Sound) (c : Context) :
    I.Keeps w (openScope e ps vs >>= fun e => inFrame e c (eval fuel body)) I.Sound := by
  intro i hi r j h
  obtain ⟨w₁, hopened, hadmits, hback⟩ := I.enter hi hf hvs c
  rw [openScope_inFrame] at h
  split at h
  next r' k hk =>
    obtain ⟨w₂, hw₂, hk', hv⟩ := hbody w₁ hadmits _ hopened r' k hk
    obtain ⟨w₃, hw₃, hj, hdata⟩ := hback w₂ k hw₂ hk'
    cases h
    exact ⟨w₃, hw₃, hj, fun v hr => hdata _ (hv v hr)⟩
  next => cases h

theorem builtin {vs : List Value} (hvs : ∀ v ∈ vs, I.Sound w v) (b : Builtin) (ps : List String)
    (s : Span) {next : Interpreter → Context} :
    I.Keeps w (do
      let i ← get
      let e ← openScope i.environment ps vs
      runBuiltin b e (next i) s) I.Sound := by
  intro i hi r j h
  obtain ⟨w', hw, hj⟩ := I.argument hi hvs ps j.console
  cases h
  refine ⟨w', hw, hj, fun v hv => ?_⟩
  split at hv
  next d hd =>
    cases hv
    exact I.plain (Builtin.run_plain hd)
  next => cases hv

end Invariant.Keeps

/-- With this fuel every part of the evaluator keeps the invariant. -/
structure Invariant.Keeping (I : Invariant W) (fuel : Nat) : Prop where
  eval : ∀ w e, I.Admits w e → I.Keeps w (eval fuel e) I.Sound
  evalArms : ∀ w m as, (∀ c ∈ as.children, I.Admits w c) → I.Keeps w (evalArms fuel m as) I.Sound
  evalStep : ∀ w s, (∀ e ∈ s, I.Admits w e) → I.Keeps w (evalStep fuel s) fun _ _ => True
  countFrom : ∀ w m x by_ last body n, I.Admits w body →
    I.Keeps w (countFrom fuel m x by_ last body n) fun _ _ => True
  repeatWhile : ∀ w test body, I.Admits w test → I.Admits w body →
    I.Keeps w (repeatWhile fuel test body) fun _ _ => True
  evalAll : ∀ w es, (∀ e ∈ es, I.Admits w e) →
    I.Keeps w (evalAll fuel es) fun w vs => ∀ v ∈ vs, I.Sound w v
  apply : ∀ w f vs m, I.Data w (.function f) → (∀ v ∈ vs, I.Sound w v) →
    I.Keeps w (apply fuel f vs m) I.Sound

namespace Invariant

variable {m : Span}

theorem admits_choose {test body : Expr Span} {as : Arms Span}
    (h : I.Admits w (.choose m test body as)) :
    I.Admits w test ∧ I.Admits w body ∧ ∀ c ∈ as.children, I.Admits w c := by
  have hc : ∀ c ∈ (Expr.choose m test body as).children, I.Admits w c := fun _ => I.child h
  simpa only [Expr.children, List.forall_mem_cons] using hc

theorem admits_count {x : String} {start stop body : Expr Span} {step : Option (Expr Span)}
    (h : I.Admits w (.count m x start stop step body)) :
    I.Admits w start ∧ I.Admits w stop ∧ (∀ e ∈ step, I.Admits w e) ∧ I.Admits w body := by
  have hc : ∀ c ∈ (Expr.count m x start stop step body).children, I.Admits w c := fun _ => I.child h
  simpa [Expr.children, or_imp, forall_and] using hc

theorem admits_call {callee : Expr Span} {args : List (Expr Span)}
    (h : I.Admits w (.call m callee args)) : I.Admits w callee ∧ ∀ e ∈ args, I.Admits w e :=
  List.forall_mem_cons.mp fun _ => I.child h

theorem admits_pair {e a b : Expr Span} (h : I.Admits w e) (hc : e.children = [a, b]) :
    I.Admits w a ∧ I.Admits w b := by
  have ha : a ∈ e.children := hc ▸ List.mem_cons_self
  have hb : b ∈ e.children := hc ▸ List.mem_cons_of_mem a List.mem_cons_self
  exact ⟨I.child h ha, I.child h hb⟩

end Invariant

theorem keeps_var (fuel : Nat) (m : Span) (x : String) :
    I.Keeps w (eval (fuel + 1) (.var m x)) I.Sound := by
  refine .bind (.lookup x) fun w o _ ho => ?_
  split
  next v => exact .pure (ho v rfl)
  · exact .fail _ _

theorem keeps_function (fuel : Nat) {m : Span} {x : Option String} {ps : List String}
    {body : Expr Span} (he : I.Admits w (.function m x ps body)) :
    I.Keeps w (eval (fuel + 1) (.function m x ps body)) I.Sound := by
  refine .bind .state fun w i hw hi => ?_
  refine .bind (.tag m (I.closure hi (I.admits_mono hw he))) fun w f _ hf => ?_
  cases x with
  | none => exact .pure hf
  | some name => exact .bind (.define name hf) fun w _ hw _ => .pure (I.data_mono hw hf)

section

variable {fuel : Nat} (h : I.Keeping fuel)
include h

theorem keeps_choice {test body : Expr Span} {other : Eval Value} (ht : I.Admits w test)
    (hb : I.Admits w body) (ho : ∀ w', I.Later w w' → I.Keeps w' other I.Sound) :
    I.Keeps w (do if (← eval fuel test).datum.isTrue then eval fuel body else other) I.Sound := by
  refine .bind (h.eval w test ht) fun w v hw _ => ?_
  split
  · exact h.eval w body (I.admits_mono hw hb)
  · exact ho w hw

theorem keeps_count {m : Span} {x : String} {start stop : Expr Span} {step : Option (Expr Span)}
    {body : Expr Span} (he : I.Admits w (.count m x start stop step body)) :
    I.Keeps w (eval (fuel + 1) (.count m x start stop step body)) I.Sound := by
  obtain ⟨hstart, hstop, hstep, hbody⟩ := I.admits_count he
  refine .bind (h.eval w start hstart) fun w₁ a h₁ _ => ?_
  refine .bind (.asBound _ _ a) fun w₂ first h₂ _ => ?_
  have h₂ := I.trans h₁ h₂
  refine .bind (h.eval w₂ stop (I.admits_mono h₂ hstop)) fun w₃ b h₃ _ => ?_
  refine .bind (.asBound _ _ b) fun w₄ last h₄ _ => ?_
  have h₄ := I.trans h₂ (I.trans h₃ h₄)
  refine .bind (h.evalStep w₄ step fun e hs => I.admits_mono h₄ (hstep e hs)) fun w₅ by_ h₅ _ => ?_
  have hbody := I.admits_mono (I.trans h₄ h₅) hbody
  exact .bind (h.countFrom w₅ m x by_ last body first hbody) fun w _ _ _ =>
    .tag m (I.plain (Datum.plain_number _))

theorem keeps_call {m : Span} {callee : Expr Span} {args : List (Expr Span)}
    (he : I.Admits w (.call m callee args)) :
    I.Keeps w (eval (fuel + 1) (.call m callee args)) I.Sound := by
  obtain ⟨hcallee, hargs⟩ := I.admits_call he
  refine .bind (h.eval w callee hcallee) fun w₁ f h₁ hf => ?_
  refine .bind (h.evalAll w₁ args fun e he => I.admits_mono h₁ (hargs e he)) fun w₂ vs h₂ hvs => ?_
  have hf : I.Data w₂ f.datum := I.data_mono h₂ hf
  split
  next g hg =>
    rw [hg] at hf
    exact .bind (h.apply w₂ g vs m hf hvs) fun w v _ hv => .tag m hv
  · exact .fail _ _

theorem keeps_eval {e : Expr Span} (he : I.Admits w e) :
    I.Keeps w (eval (fuel + 1) e) I.Sound := by
  cases e with
  | number m n => exact .tag m (I.plain (Datum.plain_number n))
  | string m s => exact .tag m (I.plain (Datum.plain_string s))
  | var m x => exact keeps_var fuel m x
  | assign m x e =>
    refine .bind (h.eval w e (I.child he List.mem_cons_self)) fun w v _ hv => ?_
    exact .bind (.define x hv) fun w _ hw _ => .pure (I.data_mono hw hv)
  | binary m op l r =>
    obtain ⟨hl, hr⟩ := I.admits_pair he rfl
    refine .bind (h.eval w l hl) fun w₁ a h₁ _ => ?_
    refine .bind (h.eval w₁ r (I.admits_mono h₁ hr)) fun w₂ b _ _ => ?_
    exact .tagResult _ _ fun d hd => I.plain (Datum.binary_plain hd)
  | unary m op e =>
    refine .bind (h.eval w e (I.child he List.mem_cons_self)) fun w a _ ha => ?_
    refine .tagResult _ _ fun d hd => ?_
    rcases Datum.unary_plain hd with rfl | hd
    · exact ha
    · exact I.plain hd
  | choose m test body arms =>
    obtain ⟨ht, hb, harms⟩ := I.admits_choose he
    exact keeps_choice h ht hb fun w' hw =>
      h.evalArms w' m arms fun c hc => I.admits_mono hw (harms c hc)
  | count m x start stop step body => exact keeps_count h he
  | loop m test body =>
    obtain ⟨ht, hb⟩ := I.admits_pair he rfl
    exact .bind (h.repeatWhile w test body ht hb) fun w _ _ _ =>
      .tag m (I.plain (Datum.plain_number _))
  | function m x ps body => exact keeps_function fuel he
  | call m callee args => exact keeps_call h he

theorem keeps_evalArms (m : Span) {as : Arms Span} (has : ∀ c ∈ as.children, I.Admits w c) :
    I.Keeps w (evalArms (fuel + 1) m as) I.Sound := by
  cases as with
  | done => exact .tag m (I.plain (Datum.plain_number _))
  | otherwise body => exact h.eval w body (has body List.mem_cons_self)
  | elif test body arms =>
    obtain ⟨ht, hb, harms⟩ := by simpa only [Arms.children, List.forall_mem_cons] using has
    exact keeps_choice h ht hb fun w' hw =>
      h.evalArms w' m arms fun c hc => I.admits_mono hw (harms c hc)

theorem keeps_evalStep {s : Option (Expr Span)} (hs : ∀ e ∈ s, I.Admits w e) :
    I.Keeps w (evalStep (fuel + 1) s) fun _ _ => True := by
  cases s with
  | none => exact .pure trivial
  | some e =>
    refine .bind (h.eval w e (hs e rfl)) fun w v _ _ => .bind (.asBound _ _ v) fun w n _ _ => ?_
    split
    · exact .fail _ _
    · exact .pure trivial

theorem keeps_countFrom (m : Span) (x : String) (by_ last : Int64) {body : Expr Span}
    (n : Int64) (hb : I.Admits w body) :
    I.Keeps w (countFrom (fuel + 1) m x by_ last body n) fun _ _ => True := by
  unfold countFrom
  split
  · refine .bind (.tag m (I.plain (Datum.plain_number _))) fun w₁ v h₁ hv => ?_
    refine .bind (.define x hv) fun w₂ _ h₂ _ => ?_
    have hb := I.admits_mono (I.trans h₁ h₂) hb
    refine .bind (h.eval w₂ body hb) fun w₃ _ h₃ _ => ?_
    split
    · exact h.countFrom w₃ m x by_ last body _ (I.admits_mono h₃ hb)
    · exact .pure trivial
  · exact .pure trivial

theorem keeps_repeatWhile {test body : Expr Span} (ht : I.Admits w test) (hb : I.Admits w body) :
    I.Keeps w (repeatWhile (fuel + 1) test body) fun _ _ => True := by
  refine .bind (h.eval w test ht) fun w₁ v h₁ _ => ?_
  split
  · refine .bind (h.eval w₁ body (I.admits_mono h₁ hb)) fun w₂ _ h₂ _ => ?_
    have h₂ := I.trans h₁ h₂
    exact h.repeatWhile w₂ test body (I.admits_mono h₂ ht) (I.admits_mono h₂ hb)
  · exact .pure trivial

theorem keeps_evalAll {es : List (Expr Span)} (hes : ∀ e ∈ es, I.Admits w e) :
    I.Keeps w (evalAll (fuel + 1) es) fun w vs => ∀ v ∈ vs, I.Sound w v := by
  cases es with
  | nil => exact .pure nofun
  | cons e es =>
    obtain ⟨he, hes⟩ := List.forall_mem_cons.mp hes
    refine .bind (h.eval w e he) fun w₁ v h₁ hv => ?_
    refine .bind (h.evalAll w₁ es fun e he => I.admits_mono h₁ (hes e he)) fun w₂ vs h₂ hvs => ?_
    exact .pure (List.forall_mem_cons.mpr ⟨I.data_mono h₂ hv, hvs⟩)

theorem keeps_apply {f : Function} {vs : List Value} (m : Span) (hf : I.Data w (.function f))
    (hvs : ∀ v ∈ vs, I.Sound w v) : I.Keeps w (apply (fuel + 1) f vs m) I.Sound := by
  unfold apply
  split
  · exact .fail _ _
  · cases f with
    | closure x ps body e =>
      refine .bind .state fun w' i hw _ => ?_
      have hvs : ∀ v ∈ vs, I.Sound w' v := fun v hv => I.data_mono hw (hvs v hv)
      exact .call (I.data_mono hw hf) hvs (fun w' hb => h.eval w' body hb) _
    | builtin b => exact .builtin hvs b _ m

end

/-- Evaluation keeps every invariant. -/
theorem Invariant.keeping (I : Invariant W) (fuel : Nat) : I.Keeping fuel := by
  induction fuel with
  | zero => constructor <;> intros <;> exact .outOfFuel
  | succ fuel h =>
    exact {
      eval _ _ := keeps_eval h
      evalArms _ m _ := keeps_evalArms h m
      evalStep _ _ := keeps_evalStep h
      countFrom _ m x by_ last _ n := keeps_countFrom h m x by_ last n
      repeatWhile _ _ _ := keeps_repeatWhile h
      evalAll _ _ := keeps_evalAll h
      apply _ _ _ m := keeps_apply h m }

/-- A source keeps the invariant if the expression that it is made of is admitted. -/
theorem Invariant.keeps_evalSource (fuel : Nat) {s : Source}
    (hs : ∀ e, (Scan.tokens s >>= parse) = .ok e → I.Admits w e) :
    I.Keeps w (evalSource fuel s) I.Sound := by
  have hread : ReadOnly (liftM (Scan.tokens s >>= parse) : Eval Parser.Node) := fun _ => ⟨_, rfl⟩
  have hadmits : I.Keeps w (liftM (Scan.tokens s >>= parse) : Eval Parser.Node) I.Admits := by
    refine .of_readOnly hread fun i _ e j h => ?_
    have hp : (Scan.tokens s >>= parse, i) = (.ok e, j) := Option.some.inj h
    exact hs e (congrArg Prod.fst hp)
  exact .bind hadmits fun w' e _ he => (I.keeping fuel).eval w' e he

end Minibasic.Interpreter

import Minibasic.Proofs.Evaluation.Depth
import Minibasic.Proofs.Evaluation.Session

/-!
What programs and their tasks come to. From a state that a session comes to, every program and every
task of a program come to such states again: the values that evaluation has in hand on the way stay
in hand, and no scope gets another parent.
-/

namespace Minibasic.Interpreter

variable {n : Nat} {i j k : Interpreter} {vs vs' vs'' : List Value} {v : Value}

/-- From the first state and the values in hand there, a session comes to the second, with more
values in hand and with a table of parents that extends the first. -/
structure Onward (i : Interpreter) (vs : List Value) (j : Interpreter) (vs' : List Value) :
    Prop where
  inHand : vs ⊆ vs'
  reachable : Reachable i vs → Reachable j vs'
  agreed : ∀ w, Agreed w i vs → ∃ w', w <+: w' ∧ Agreed w' j vs'

namespace Onward

theorem refl (i : Interpreter) (vs : List Value) : Onward i vs i vs where
  inHand := List.Subset.refl vs
  reachable h := h
  agreed w h := ⟨w, List.prefix_rfl, h⟩

theorem trans (h : Onward i vs j vs') (h' : Onward j vs' k vs'') : Onward i vs k vs'' where
  inHand := List.Subset.trans h.inHand h'.inHand
  reachable hi := h'.reachable (h.reachable hi)
  agreed w hw := by
    obtain ⟨w', hext, hw'⟩ := h.agreed w hw
    obtain ⟨w'', hext', hw''⟩ := h'.agreed w' hw'
    exact ⟨w'', hext.trans hext', hw''⟩

theorem console (i : Interpreter) (vs : List Value) (console : Console) :
    Onward i vs { i with console } vs where
  inHand := List.Subset.refl vs
  reachable := .console console
  agreed w h := ⟨w, List.prefix_rfl, ⟨h.1.size, h.1.environment, h.1.store⟩, h.2⟩

/-- The value of an expression is in hand from then on. -/
theorem value (vs : List Value) {e : Expr Span} (h : eval n e i = some (.ok v, j)) :
    Onward i vs j (v :: vs) where
  inHand := List.subset_cons_self v vs
  reachable hi := hi.value h
  agreed _ hw := hw.value h

theorem failure (vs : List Value) {e : Expr Span} {d : Diagnostic}
    (h : eval n e i = some (.error d, j)) : Onward i vs j vs where
  inHand := List.Subset.refl vs
  reachable hi := hi.failure h
  agreed w hw := by
    obtain ⟨w', hext, hw', -⟩ := hw.eval h
    exact ⟨w', hext, hw'⟩

theorem counted (i : Interpreter) (vs : List Value) (m : Span) (x : String) (counter : Int64) :
    Onward i vs (i.counted m x counter) vs where
  inHand := List.Subset.refl vs
  reachable hi := hi.define x (.inr ⟨.int counter, rfl⟩)
  agreed w hw := by
    have hs : Sound w { datum := .int counter, span := some m, context := some i.context } :=
      trivial
    exact ⟨w, List.prefix_rfl, hw.define hs x⟩

/-- The body of a function in hand starts in a scope of its own. -/
theorem entered {x : Option String} {ps : List String} {body : Expr Span} {closed : Environment}
    {args : List Value} (hv : v ∈ vs) (hf : v.datum = .function (.closure x ps body closed))
    (hargs : args ⊆ vs) (m : Span) : Onward i vs (i.entered x ps closed args m) vs where
  inHand := List.Subset.refl vs
  reachable hi := hi.enter _ hv hf hargs
  agreed _ hw := ⟨_, ⟨_, rfl⟩, hw.enter hv hf hargs _⟩

theorem step (vs : List Value) {s : Option (Expr Span)} {by_ : Int64}
    (h : evalStep n s i = some (.ok by_, j)) : ∃ vs', Onward i vs j vs' := by
  cases n with
  | zero => cases h
  | succ n =>
    cases s with
    | none =>
      cases h
      exact ⟨vs, .refl _ _⟩
    | some e =>
      obtain ⟨v, k, hv, hrest⟩ := exists_of_bind h
      obtain ⟨b, l, hb, hend⟩ := exists_of_bind hrest
      obtain rfl : l = k := (readOnly_asBound _ _ v).eq hb
      split at hend
      · cases hend
      · cases hend
        exact ⟨_, .value vs hv⟩

/-- All values of a list of expressions are in hand when the last one is known. -/
theorem all (vs : List Value) {es : List (Expr Span)} {us : List Value}
    (h : evalAll n es i = some (.ok us, j)) : ∃ vs', Onward i vs j vs' ∧ us ⊆ vs' := by
  induction es generalizing n i vs us with
  | nil =>
    cases n with
    | zero => cases h
    | succ n =>
      cases h
      exact ⟨vs, .refl _ _, List.nil_subset vs⟩
  | cons e es ih =>
    cases n with
    | zero => cases h
    | succ n =>
      obtain ⟨v, k, hv, hrest⟩ := exists_of_bind h
      obtain ⟨us', l, hes, hend⟩ := exists_of_bind hrest
      cases hend
      obtain ⟨vs', ho, hus⟩ := ih (v :: vs) hes
      have hhand : v ∈ vs' := ho.inHand List.mem_cons_self
      exact ⟨vs', (Onward.value vs hv).trans ho, List.cons_subset.mpr ⟨hhand, hus⟩⟩

/-- A source is evaluated or refused. -/
theorem source (vs : List Value) {s : Source} {r : Except Diagnostic Value}
    (h : evalSource n s i = some (r, j)) : ∃ vs', Onward i vs j vs' := by
  cases htokens : Scan.tokens s with
  | error d =>
    rw [evalSource_of_error htokens] at h
    cases h
    exact ⟨vs, .refl _ _⟩
  | ok ts =>
    rw [evalSource_of_tokens n htokens] at h
    split at h
    · cases r with
      | ok v => exact ⟨_, .value vs h⟩
      | error d => exact ⟨_, .failure vs h⟩
    · cases h
      exact ⟨vs, .refl _ _⟩

end Onward

theorem Programs.onward {ss : List Source} (h : Programs i ss j) (vs : List Value) :
    ∃ vs', Onward i vs j vs' := by
  induction h with
  | start => exact ⟨vs, .refl _ _⟩
  | @program _ _ _ _ console _ _ _ hs ih =>
    obtain ⟨vs₁, h₁⟩ := ih
    obtain ⟨vs₂, h₂⟩ := Onward.source vs₁ hs
    exact ⟨vs₂, h₁.trans ((Onward.console _ _ console).trans h₂)⟩

/-- The function and the arguments of a call are in hand. -/
def Task.InHand (vs : List Value) : Task → Prop
  | .apply f args _ => (∃ v ∈ vs, v.datum = .function f) ∧ args ⊆ vs
  | _ => True

variable {t t' : Task} {calls : List Activation}

/-- What a task starts with is no call. -/
theorem Task.inHand_first (h : t.first? = some t') (vs : List Value) : t'.InHand vs := by
  unfold first? at h
  split at h <;> cases h <;> trivial

/-- A task comes to its parts with the values that they need in hand. -/
theorem Part.onward (h : Part n t i calls t' j) (ht : t.InHand vs) :
    ∃ vs', Onward i vs j vs' ∧ t'.InHand vs' := by
  cases h with
  | first hf => exact ⟨vs, .refl _ _, Task.inHand_first hf vs⟩
  | right h | chosen _ h _ | other _ h _ | stop h _ | lasting h _ | tail h | arguments h =>
    exact ⟨_, .value vs h, trivial⟩
  | step ha _ hb _ | again ha _ hb => exact ⟨_, (Onward.value vs ha).trans (.value _ hb), trivial⟩
  | count ha _ hb _ hs =>
    have hbounds := (Onward.value vs ha).trans (.value _ hb)
    obtain ⟨vs', ho⟩ := Onward.step _ hs
    exact ⟨vs', hbounds.trans ho, trivial⟩
  | iteration _ => exact ⟨vs, .counted _ _ _ _ _, trivial⟩
  | next _ h _ => exact ⟨_, (Onward.counted i vs _ _ _).trans (.value vs h), trivial⟩
  | @apply _ _ _ v _ _ _ _ _ hv hf hargs =>
    obtain ⟨vs', ho, hsub⟩ := Onward.all (v :: vs) hargs
    have hhand : v ∈ vs' := ho.inHand List.mem_cons_self
    exact ⟨vs', (Onward.value vs hv).trans ho, ⟨v, hhand, hf⟩, hsub⟩
  | enter _ =>
    obtain ⟨⟨v, hv, hf⟩, hargs⟩ := ht
    exact ⟨vs, .entered hv hf hargs _, trivial⟩

theorem Visits.onward {fuel : Nat} (h : Visits fuel t i calls n t' j) (ht : t.InHand vs) :
    ∃ vs', Onward i vs j vs' ∧ t'.InHand vs' := by
  induction h generalizing vs with
  | here => exact ⟨vs, .refl _ _, ht⟩
  | part hp _ ih =>
    obtain ⟨vs₁, h₁, ht₁⟩ := hp.onward ht
    obtain ⟨vs₂, h₂, ht₂⟩ := ih ht₁
    exact ⟨vs₂, h₁.trans h₂, ht₂⟩

end Minibasic.Interpreter

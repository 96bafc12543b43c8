import Minibasic.Proofs.Evaluation.Invariant
import Minibasic.Proofs.Evaluation.Tasks

/-!
Invariants on the way. What evaluation keeps holds in the state of every task that a run comes to,
whether the run ends or not.
-/

namespace Minibasic.Interpreter

variable {W : Type} {I : Invariant W} {w : W} {n : Nat} {t t' : Task} {i j : Interpreter}
  {calls : List Activation}

namespace Invariant

/-- The expressions of the task are admitted in the world `w`, and its data are good there. -/
def Allows (I : Invariant W) (w : W) : Task → Prop
  | .eval e => I.Admits w e
  | .arms _ as => ∀ c ∈ as.children, I.Admits w c
  | .step s => ∀ e ∈ s, I.Admits w e
  | .count _ _ _ _ body _ => I.Admits w body
  | .loop test body => I.Admits w test ∧ I.Admits w body
  | .all es => ∀ e ∈ es, I.Admits w e
  | .apply f vs _ => I.Data w (.function f) ∧ ∀ v ∈ vs, I.Sound w v

/-- The task is allowed in a world that its state belongs to. -/
def Fits (I : Invariant W) (t : Task) (i : Interpreter) : Prop :=
  ∃ w, I.State w i ∧ I.Allows w t

theorem eval_ok {e : Expr Span} {v : Value} (hi : I.State w i) (he : I.Admits w e)
    (h : eval n e i = some (.ok v, j)) : ∃ w', I.Later w w' ∧ I.State w' j ∧ I.Sound w' v := by
  obtain ⟨w', hw, hj, hv⟩ := (I.keeping n).eval w e he i hi _ j h
  exact ⟨w', hw, hj, hv v rfl⟩

theorem evalStep_ok {s : Option (Expr Span)} {by_ : Int64} (hi : I.State w i)
    (hs : ∀ e ∈ s, I.Admits w e) (h : evalStep n s i = some (.ok by_, j)) :
    ∃ w', I.Later w w' ∧ I.State w' j := by
  obtain ⟨w', hw, hj, -⟩ := (I.keeping n).evalStep w s hs i hi _ j h
  exact ⟨w', hw, hj⟩

theorem evalAll_ok {es : List (Expr Span)} {vs : List Value} (hi : I.State w i)
    (hes : ∀ e ∈ es, I.Admits w e) (h : evalAll n es i = some (.ok vs, j)) :
    ∃ w', I.Later w w' ∧ I.State w' j ∧ ∀ v ∈ vs, I.Sound w' v := by
  obtain ⟨w', hw, hj, hvs⟩ := (I.keeping n).evalAll w es hes i hi _ j h
  exact ⟨w', hw, hj, hvs vs rfl⟩

theorem allows_first (ht : t.first? = some t') (h : I.Allows w t) : I.Allows w t' := by
  cases t with
  | eval e =>
    cases e with
    | assign | binary | unary | choose | count | call =>
      cases ht
      exact I.child h List.mem_cons_self
    | loop m test body =>
      cases ht
      exact I.admits_pair h rfl
    | number | string | var | function => cases ht
  | arms m as =>
    cases as with
    | done => cases ht
    | otherwise | elif =>
      cases ht
      exact h _ List.mem_cons_self
  | step s =>
    cases s with
    | none => cases ht
    | some e =>
      cases ht
      exact h e rfl
  | loop test body =>
    cases ht
    exact h.1
  | all es =>
    cases es with
    | nil => cases ht
    | cons e es =>
      cases ht
      exact h e List.mem_cons_self
  | count | apply => cases ht

theorem allows_choice {test body : Expr Span} {m : Span} {as : Arms Span}
    (ht : t.choice? = some (test, body, m, as)) (h : I.Allows w t) :
    I.Admits w test ∧ I.Admits w body ∧ ∀ c ∈ as.children, I.Admits w c := by
  unfold Task.choice? at ht
  split at ht <;> cases ht
  · exact I.admits_choose h
  · simpa only [Allows, Arms.children, List.forall_mem_cons] using h

theorem state_counted (hi : I.State w i) (m : Span) (x : String) (counter : Int64) :
    I.State w (i.counted m x counter) :=
  I.define hi (I.plain (Datum.plain_number _))

/-- Two evaluations one after the other, such as those of the start and the stop of a loop. -/
theorem eval_eval_ok {e e' : Expr Span} {u v : Value} {k : Interpreter} (hi : I.State w i)
    (he : I.Admits w e) (he' : I.Admits w e') (h : eval n e i = some (.ok u, j))
    (h' : eval n e' j = some (.ok v, k)) : ∃ w', I.Later w w' ∧ I.State w' k := by
  obtain ⟨w₁, h₁, hj, -⟩ := eval_ok hi he h
  obtain ⟨w₂, h₂, hk, -⟩ := eval_ok hj (I.admits_mono h₁ he') h'
  exact ⟨w₂, I.trans h₁ h₂, hk⟩

/-- From a state that keeps the invariant, a task comes to its parts in such states. -/
theorem Fits.part (h : I.Fits t i) (hp : Part n t i calls t' j) : I.Fits t' j := by
  obtain ⟨w, hi, ht⟩ := h
  cases hp with
  | first hf => exact ⟨w, hi, allows_first hf ht⟩
  | right ha =>
    obtain ⟨hl, hr⟩ := I.admits_pair ht rfl
    obtain ⟨w', hw, hj, -⟩ := eval_ok hi hl ha
    exact ⟨w', hj, I.admits_mono hw hr⟩
  | chosen hc hv _ =>
    obtain ⟨htest, hbody, -⟩ := allows_choice hc ht
    obtain ⟨w', hw, hj, -⟩ := eval_ok hi htest hv
    exact ⟨w', hj, I.admits_mono hw hbody⟩
  | other hc hv _ =>
    obtain ⟨htest, -, has⟩ := allows_choice hc ht
    obtain ⟨w', hw, hj, -⟩ := eval_ok hi htest hv
    exact ⟨w', hj, fun c hc => I.admits_mono hw (has c hc)⟩
  | stop ha _ =>
    obtain ⟨hstart, hstop, -⟩ := I.admits_count ht
    obtain ⟨w', hw, hj, -⟩ := eval_ok hi hstart ha
    exact ⟨w', hj, I.admits_mono hw hstop⟩
  | step ha _ hb _ =>
    obtain ⟨hstart, hstop, hstep, -⟩ := I.admits_count ht
    obtain ⟨w', hw, hk⟩ := eval_eval_ok hi hstart hstop ha hb
    exact ⟨w', hk, fun e he => I.admits_mono hw (hstep e he)⟩
  | count ha _ hb _ hs =>
    obtain ⟨hstart, hstop, hstep, hbody⟩ := I.admits_count ht
    obtain ⟨w₁, h₁, hk⟩ := eval_eval_ok hi hstart hstop ha hb
    obtain ⟨w₂, h₂, hl⟩ := evalStep_ok hk (fun e he => I.admits_mono h₁ (hstep e he)) hs
    exact ⟨w₂, hl, I.admits_mono (I.trans h₁ h₂) hbody⟩
  | iteration _ => exact ⟨w, state_counted hi _ _ _, ht⟩
  | next _ hv _ =>
    obtain ⟨w', hw, hj, -⟩ := eval_ok (state_counted hi _ _ _) ht hv
    exact ⟨w', hj, I.admits_mono hw ht⟩
  | lasting hv _ =>
    obtain ⟨w', hw, hj, -⟩ := eval_ok hi ht.1 hv
    exact ⟨w', hj, I.admits_mono hw ht.2⟩
  | again hv _ hu =>
    obtain ⟨w', hw, hk⟩ := eval_eval_ok hi ht.1 ht.2 hv hu
    exact ⟨w', hk, I.admits_mono hw ht.1, I.admits_mono hw ht.2⟩
  | tail hv =>
    obtain ⟨he, hes⟩ := List.forall_mem_cons.mp ht
    obtain ⟨w', hw, hj, -⟩ := eval_ok hi he hv
    exact ⟨w', hj, fun e he => I.admits_mono hw (hes e he)⟩
  | arguments hv =>
    obtain ⟨hcallee, hargs⟩ := I.admits_call ht
    obtain ⟨w', hw, hj, -⟩ := eval_ok hi hcallee hv
    exact ⟨w', hj, fun e he => I.admits_mono hw (hargs e he)⟩
  | apply hv hf hvs =>
    obtain ⟨hcallee, hargs⟩ := I.admits_call ht
    obtain ⟨w₁, h₁, hj, hv⟩ := eval_ok hi hcallee hv
    obtain ⟨w₂, h₂, hk, hvs⟩ := evalAll_ok hj (fun e he => I.admits_mono h₁ (hargs e he)) hvs
    rw [Sound, hf] at hv
    exact ⟨w₂, hk, I.data_mono h₂ hv, hvs⟩
  | enter _ =>
    obtain ⟨w', hj, hbody, -⟩ := I.enter hi ht.1 ht.2 _
    exact ⟨w', hj, hbody⟩

/-- And so it does to all tasks further on. -/
theorem Fits.visits {fuel : Nat} (h : I.Fits t i) (hv : Visits fuel t i calls n t' j) :
    I.Fits t' j := by
  induction hv with
  | here => exact h
  | part hp _ ih => exact ih (h.part hp)

end Invariant

end Minibasic.Interpreter

import Minibasic.Proofs.Evaluation.Output
import Minibasic.Proofs.Evaluation.Session
import Minibasic.Proofs.Evaluation.Simulation

/-!
Functions keep no state. A call leaves every scope that it finds as it is, so that the same call
made again, in the state that the first one has left, runs alike: the scopes that the one makes
stand for those that the other makes.
-/

namespace Minibasic

/-- The number `b` is `a` if that is less than `n`, and otherwise it is `k` more. -/
def Shifted (n k a b : Nat) : Prop := (a = b ∧ a < n) ∨ (n ≤ a ∧ b = a + k)

theorem Shifted.eq_iff {n k a b c d : Nat} (hab : Shifted n k a b) (hcd : Shifted n k c d) :
    a = c ↔ b = d := by
  unfold Shifted at hab hcd
  omega

/-- The view of a session on itself when `k` more scopes have been made than the `n` there were. The
first `n` scopes stand for themselves, and those after them for the ones `k` places on. -/
def View.later (n k : Nat) : View Span where
  span := id
  scope := Shifted n k
  paired := Shifted.eq_iff

variable {w : Parents} {n : Nat}

theorem Environment.alike_later (hn : w.length = n) (k : Nat) {e : Environment}
    (he : w.Ranks e.chain) : e.Alike (.later n k) e :=
  List.forall₂_same.mpr fun id hid => .inl ⟨rfl, hn ▸ he.lt_of_mem id hid⟩

theorem Datum.alike_later (hn : w.length = n) (k : Nat) {d : Datum} (hd : d.Follows w) :
    d.Alike (.later n k) d := by
  cases d with
  | number n => exact .number n
  | string s => exact .string s
  | function f =>
    cases f with
    | closure x ps body e => exact .closure x ps rfl (Environment.alike_later hn k hd)
    | builtin b => exact .builtin b

/-- A store is alike to one that has `k` more scopes and binds the same in the others. -/
theorem Store.alike_later {s s' : Store} (hn : w.length = s.size) {k : Nat}
    (hsize : s'.size = s.size + k) (hs : s.Follows w)
    (hscope : ∀ id < s.size, s'.scope id = s.scope id) : s.Alike (.later s.size k) s' where
  get? := by
    intro a b hab x
    rcases hab with ⟨rfl, ha⟩ | ⟨ha, rfl⟩
    · rw [hscope a ha]
      cases hv : (s.scope a).get? x with
      | none => exact .none
      | some v => exact .some (Datum.alike_later hn k (hs a x v hv))
    · have hb : s'.size ≤ a + k := hsize ▸ Nat.add_le_add_right ha k
      rw [scope_of_size_le s ha, scope_of_size_le s' hb]
      exact .none
  fresh l := .inr ⟨Nat.le_add_right _ _, by omega⟩

namespace Interpreter

variable {i i' : Interpreter} {vs args : List Value} {f : Function} {fuel : Nat} {m : Span}
  {r : Except Diagnostic Value}

/-- The results of a call and of the same call made again. Numbers and strings are equal, and so are
functions but for the scopes that the calls have made, which are `k` apart. Failures have the same
cause and the same place. -/
inductive Again (n k : Nat) : Except Diagnostic Value → Except Diagnostic Value → Prop
  | value {v v' : Value} : v.Alike (.later n k) v' → Again n k (.ok v) (.ok v')
  | failure {d d' : Diagnostic} : d.cause = d'.cause → d.span = d'.span →
      Again n k (.error d) (.error d')

theorem Ends.again {n k : Nat} {j : Interpreter}
    {o : Option (Except Diagnostic Value × Interpreter)}
    (h : Ends (.later n k) (Value.Alike (.later n k)) (some (r, j)) o) :
    ∃ r' j', o = some (r', j') ∧ Again n k r r' ∧ j.Alike (.later n k) j' := by
  cases h with
  | value hv hj => exact ⟨_, _, rfl, .value hv, hj⟩
  | failure hd hj => exact ⟨_, _, rfl, .failure hd.cause hd.span, hj⟩

/-- The state that a call has left is alike to the one that it found, but for the console. -/
theorem Ordered.alike_later (hi : i.Ordered w) {k : Nat}
    (hsize : i'.store.size = i.store.size + k) (hframe : i'.environment = i.environment)
    (hscope : ∀ id < i.store.size, i'.store.scope id = i.store.scope id) :
    i.Alike (.later i.store.size k) { i' with console := i.console } where
  environment := by
    rw [show Interpreter.environment _ = i.environment from hframe]
    exact Environment.alike_later hi.size k hi.environment
  store := Store.alike_later hi.size hsize hi.store hscope
  console := rfl

/-- A call that takes no input writes the same lines when it is made again, with no less fuel, and
comes to the same result. -/
theorem Ordered.apply_again (hi : i.Ordered w) (hf : (Datum.function f).Follows w)
    (hargs : ∀ v ∈ args, Sound w v) (h : apply fuel f args m i = some (r, i'))
    (hin : i'.console.input = i.console.input) :
    ∃ k lines r' i'', i'.store.size = i.store.size + k ∧
      i'.console.output = i.console.output ++ lines ∧
      (∀ fuel' ≥ fuel, apply fuel' f args m i' = some (r', i'')) ∧
      i''.console = ⟨i'.console.input, i'.console.output ++ lines⟩ ∧
      Again i.store.size k r r' ∧ i'.store.Alike (.later i.store.size k) i''.store := by
  obtain ⟨_, hp⟩ := (recording fuel).apply f args m i r i' h
  have hframed : Framed i i' := hp.orderly.framed
  obtain ⟨k, hsize⟩ := Nat.exists_eq_add_of_le hframed.size
  have hlike := hi.alike_later hsize hframed.environment (scope_apply h)
  have hargs' : List.Forall₂ (Value.Alike (.later i.store.size k)) args args :=
    List.forall₂_same.mpr fun v hv => Datum.alike_later hi.size k (hargs v hv)
  have hends := (simulation (.later i.store.size k) fuel).apply f f args args m m
    (Datum.alike_later hi.size k hf) hargs' rfl i _ hlike
  rw [h] at hends
  -- The second run starts from the output of the first, and then from what that has written.
  obtain ⟨r', j, hagain, hr, hj⟩ := hends.again
  obtain ⟨lines, hlines, -⟩ := (replaying (Nat.le_refl fuel)).apply f args m _ r' j hagain
  have hout : i'.console.output = i.console.output ++ lines := by
    rw [hj.console]
    exact hlines
  have hconsole : (⟨i.console.input, i'.console.output⟩ : Console) = i'.console := by rw [← hin]
  have hstart : withOutput i'.console.output { i' with console := i.console } = i' := by
    change { i' with console := ⟨i.console.input, i'.console.output⟩ } = i'
    rw [hconsole]
  refine ⟨k, lines, r', j.withOutput (i'.console.output ++ lines), hsize, hout, ?_, ?_, hr,
    hj.store⟩
  · intro fuel' hfuel
    obtain ⟨lines', hlines', hrun⟩ := (replaying hfuel).apply f args m _ r' j hagain
    have hsame : lines' = lines := Array.append_right_inj _ |>.mp (hlines'.symm.trans hlines)
    have hrun' := hrun i'.console.output
    rwa [hstart, hsame] at hrun'
  · rw [hj.console]
    rfl

/-- A datum that a program can have at hand: a value of its own, one that is bound somewhere, or
one that is no function of the program. -/
inductive Known (i : Interpreter) (vs : List Value) : Datum → Prop
  | hand {v : Value} : v ∈ vs → Known i vs v.datum
  | bound {id : ScopeId} {x : String} {v : Value} :
      (i.store.scope id).get? x = some v → Known i vs v.datum
  | number (n : Number) : Known i vs (.number n)
  | string (s : String) : Known i vs (.string s)
  | builtin (b : Builtin) : Known i vs (.function (.builtin b))

theorem Agreed.follows_of_known (h : Agreed w i vs) {d : Datum} (hd : Known i vs d) :
    d.Follows w := by
  cases hd with
  | hand hv => exact h.2 _ hv
  | bound hv => exact h.1.store _ _ _ hv
  | number n => trivial
  | string s => trivial
  | builtin b => trivial

/-- Functions keep no state between calls. If a call comes to an end and takes no input, then the
same call made again in the state that the first has left has the same outcome, with as much fuel
or more: the same lines written, and the same result up to the scopes that the calls have made,
which bind the same. -/
theorem call_repeats (hi : Reachable i vs) (hf : Known i vs (.function f))
    (hargs : ∀ v ∈ args, Known i vs v.datum) (h : apply fuel f args m i = some (r, i'))
    (hin : i'.console.input = i.console.input) :
    ∃ k lines r' i'', i'.store.size = i.store.size + k ∧
      i'.console.output = i.console.output ++ lines ∧
      (∀ fuel' ≥ fuel, apply fuel' f args m i' = some (r', i'')) ∧
      i''.console = ⟨i'.console.input, i'.console.output ++ lines⟩ ∧
      Again i.store.size k r r' ∧ i'.store.Alike (.later i.store.size k) i''.store := by
  obtain ⟨w, hw⟩ := hi.agreed
  exact hw.1.apply_again (hw.follows_of_known hf) (fun v hv => hw.follows_of_known (hargs v hv)) h
    hin

/-- The function `FUN f(n) -> IF print(n) THEN 0 ELSE FUN () -> n` prints its argument in every
call, and gives functions that were made in scopes of their own. -/
theorem call_repeats_closure :
    let written : Expr Span := .call default (.var default "print") [.var default "n"]
    let body : Expr Span := .choose default written (.number default (.int 0))
      (.otherwise (.function default none [] (.var default "n")))
    let e : Expr Span := .function default (some "f") ["n"] body
    let args : List Value := [{ datum := .int 7 }]
    ∃ v f i r i', eval 1 e (global []) = some (.ok v, i) ∧ v.datum = .function f ∧
      apply 5 f args default i = some (r, i') ∧
      ∃ k lines r' i'', i'.store.size = i.store.size + k ∧
        i'.console.output = i.console.output ++ lines ∧
        (∀ fuel' ≥ 5, apply fuel' f args default i' = some (r', i'')) ∧
        i''.console = ⟨i'.console.input, i'.console.output ++ lines⟩ ∧
        Again i.store.size k r r' ∧ i'.store.Alike (.later i.store.size k) i''.store := by
  intro written body e args
  let f : Function := .closure (some "f") ["n"] body (global []).environment
  let v : Value := {
    datum := .function f, span := some default, context := some (global []).context }
  let i : Interpreter := { global [] with
    store := (global []).store.define (global []).environment.scope "f" v }
  have he : eval 1 e (global []) = some (.ok v, i) := rfl
  refine ⟨v, f, i, _, _, he, rfl, rfl, ?_⟩
  refine call_repeats (.value (.global []) he) (.hand (List.mem_singleton_self v)) ?_ rfl rfl
  intro u hu
  rw [List.mem_singleton.mp hu]
  exact .number _

end Interpreter

end Minibasic

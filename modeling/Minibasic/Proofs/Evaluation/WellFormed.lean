import Minibasic.Proofs.Evaluation.Reached
import Minibasic.Proofs.Evaluation.Repetition
import Mathlib.Data.List.Chain

/-!
The shape of the scopes. Functions are bound in the scopes that they were made in, and so scopes
refer to one another in circles; but whoever goes from a scope to the one around it, and so on, only
comes to older ones and to an end. This holds for every environment in any state of a session.
-/

namespace Minibasic

namespace Parents

variable {w : Parents} {id : ScopeId} {c : List ScopeId}

/-- The scopes on the way from `id` outwards, from each one to its parent. There is no answer if the
way has more scopes than are given, or if it leads to one that does not exist. -/
def walk (w : Parents) : Nat → ScopeId → Option (List ScopeId)
  | 0, _ => none
  | n + 1, id =>
    match w[id]? with
    | none => none
    | some none => some [id]
    | some (some p) => (walk w n p).map (id :: ·)

/-- What `f` gives for the first scope on the way from `id` outwards for which it gives anything; the
search goes no further than this scope. -/
def search {α : Type} (w : Parents) (f : ScopeId → Option α) : Nat → ScopeId → Option (Option α)
  | 0, _ => none
  | n + 1, id =>
    match f id, w[id]? with
    | _, none => none
    | some a, some _ => some (some a)
    | none, some none => some none
    | none, some (some p) => search w f n p

/-- Where the whole way comes to an end, a search along it does. -/
theorem search_of_walk {α : Type} (f : ScopeId → Option α) {n : Nat} (h : w.walk n id = some c) :
    w.search f n id = some (c.findSome? f) := by
  induction n generalizing id c with
  | zero => cases h
  | succ n ih =>
    unfold walk at h
    unfold search
    split at h
    · cases h
    next hw =>
      cases h
      cases hf : f id <;> simp [hw, hf]
    next p hw =>
      obtain ⟨c', hc', rfl⟩ := Option.map_eq_some_iff.mp h
      cases hf : f id with
      | some a => simp [hw, hf]
      | none => simp [hw, hf, ih hc']

/-- Each step leads to an older scope, so that there are no more of them than scopes. -/
theorem Ranks.walk (h : w.Ranks (id :: c)) : ∀ n, id < n → w.walk n id = some (id :: c) := by
  induction c generalizing id with
  | nil =>
    intro n hn
    obtain ⟨n, rfl⟩ := Nat.exists_eq_add_one_of_ne_zero (Nat.ne_zero_of_lt hn)
    have hroot : w[id]? = some none := h
    simp [Parents.walk, hroot]
  | cons p c ih =>
    intro n hn
    obtain ⟨n, rfl⟩ := Nat.exists_eq_add_one_of_ne_zero (Nat.ne_zero_of_lt hn)
    obtain ⟨hparent, hlt, hrest⟩ := h
    have hp := ih hrest n (Nat.lt_of_lt_of_le hlt (Nat.le_of_lt_succ hn))
    simp [Parents.walk, hparent, hp]

theorem Ranks.isChain : ∀ {c : List ScopeId}, w.Ranks c →
    c.IsChain fun id p => w[id]? = some (some p) ∧ p < id
  | [_], _ => .singleton _
  | _ :: _ :: _, h => .cons_cons ⟨h.1, h.2.1⟩ h.2.2.isChain

theorem Ranks.nodup {c : List ScopeId} (h : w.Ranks c) : c.Nodup := by
  have hchain : c.IsChain (· > ·) := h.isChain.imp fun _ _ h => h.2
  exact (List.isChain_iff_pairwise.mp hchain).imp Nat.ne_of_gt

end Parents

/-- The environment is a way through scopes of the store, from a scope to its parent up to one that
has none, and so looking names up in it, and counting its scopes, comes to an end. -/
structure Environment.WellFormed (w : Parents) (s : Store) (e : Environment) : Prop where
  ne_nil : e.chain ≠ []
  exist : ∀ id ∈ e.chain, id < s.size
  /-- Around each scope is its parent, and that is older. -/
  parents : e.chain.IsChain fun id p => w[id]? = some (some p) ∧ p < id
  nodup : e.chain.Nodup
  walk : w.walk s.size e.scope = some e.chain
  search : ∀ x, w.search (fun id => (s.scope id).get? x) s.size e.scope = some (s.lookup e x)
  /-- What is defined is found. -/
  define : ∀ x v, (s.define e.scope x v).lookup e x = some v

/-- All of this follows from the order of the scopes. -/
theorem Parents.Ranks.wellFormed {w : Parents} {s : Store} {e : Environment}
    (h : w.Ranks e.chain) (hs : w.length = s.size) : e.WellFormed w s := by
  have hexist : ∀ id ∈ e.chain, id < s.size := hs ▸ h.lt_of_mem
  have hscope : e.scope < s.size := hexist e.scope List.mem_cons_self
  have hwalk : w.walk s.size e.scope = some e.chain := h.walk s.size hscope
  exact {
    ne_nil := List.cons_ne_nil _ _
    exist := hexist
    parents := h.isChain
    nodup := h.nodup
    walk := hwalk
    search x := Parents.search_of_walk _ hwalk
    define x v := by
      rw [Store.lookup, Environment.chain, List.findSome?_cons, Store.get?_define s hscope,
        if_pos ⟨rfl, rfl⟩] }

/-- The environment that a function of the program was made in. -/
def Datum.environment? : Datum → Option Environment
  | .function (.closure _ _ _ e) => some e
  | _ => none

theorem Datum.Follows.ranks {w : Parents} {d : Datum} {e : Environment} (h : d.Follows w)
    (he : d.environment? = some e) : w.Ranks e.chain := by
  unfold environment? at he
  split at he
  · cases he
    exact h
  · cases he

namespace Interpreter

/-- The environments of a state and of the values in hand: the current one, and those that functions
were made in which are in hand or bound in some scope. -/
inductive Held (i : Interpreter) (vs : List Value) : Environment → Prop
  | current : Held i vs i.environment
  | captured {d : Datum} {e : Environment} : Known i vs d → d.environment? = some e → Held i vs e

/-- All environments are well-formed, and so is one that a call makes inside of any of them, whatever
it binds there. -/
structure WellFormed (w : Parents) (i : Interpreter) (vs : List Value) : Prop where
  held : ∀ e, Held i vs e → e.WellFormed w i.store
  opened : ∀ e ps args, Held i vs e → (i.opened e ps args).environment.WellFormed
    (w ++ [some e.scope]) (i.opened e ps args).store

/-- The second state comes after the first: parents stay what they are, values in hand stay in hand,
and all environments of both are well-formed there. -/
structure Continues (w : Parents) (i : Interpreter) (vs : List Value) (w' : Parents)
    (j : Interpreter) (vs' : List Value) : Prop where
  parents : w <+: w'
  inHand : vs ⊆ vs'
  wellFormed : WellFormed w' j vs'
  before : ∀ e, Held i vs e → e.WellFormed w' j.store

/-- What a task gives when it has ended. -/
def Task.results : (t : Task) → Except Diagnostic t.Result → List Value
  | _, .error _ => []
  | .eval _, .ok v | .arms _ _, .ok v | .apply _ _ _, .ok v => [v]
  | .all _, .ok vs => vs
  | .step _, .ok _ | .count _ _ _ _ _ _, .ok _ | .loop _ _, .ok _ => []

variable {w w' : Parents} {i j k : Interpreter} {vs vs' : List Value}

theorem Agreed.ranks (h : Agreed w i vs) {e : Environment} (he : Held i vs e) :
    w.Ranks e.chain := by
  cases he with
  | current => exact h.1.environment
  | captured hd he => exact (h.follows_of_known hd).ranks he

theorem Agreed.wellFormed (h : Agreed w i vs) : WellFormed w i vs where
  held e he := (h.ranks he).wellFormed h.1.size
  opened e ps args he := by
    have hchild := (h.ranks he).child
    rw [h.1.size] at hchild
    refine hchild.wellFormed ?_
    rw [List.length_append, h.1.size, size_opened, List.length_singleton]

theorem Agreed.continues (h : Agreed w i vs) (h' : Agreed w' j vs') (hw : w <+: w')
    (hvs : vs ⊆ vs') : Continues w i vs w' j vs' where
  parents := hw
  inHand := hvs
  wellFormed := h'.wellFormed
  before _ he := ((h.ranks he).mono hw).wellFormed h'.1.size

/-- What holds of the result of a task by the order of the scopes makes the values in it follow the
table, as it is then. -/
theorem Agreed.results {n : Nat} {t : Task} {r : Except Diagnostic t.Result}
    {Q : Parents → t.Result → Prop} (h : Agreed w i vs) (hm : Extends w (t.run n) Q)
    (hQ : ∀ w' a, Q w' a → ∀ v ∈ t.results (.ok a), Sound w' v) (hr : t.run n i = some (r, j)) :
    ∃ w', w <+: w' ∧ Agreed w' j (t.results r ++ vs) := by
  obtain ⟨w', hw, hj, hq⟩ := hm i h.1 r j hr
  refine ⟨w', hw, hj, List.forall_mem_append.mpr ⟨?_, fun v hv => (h.2 v hv).mono hw⟩⟩
  cases r with
  | ok a => exact hQ w' a (hq a rfl)
  | error d => exact nofun

/-- A task that has ended has extended the table, and its results follow it. -/
theorem Agreed.run {n : Nat} {t : Task} {r : Except Diagnostic t.Result} (h : Agreed w i vs)
    (ht : t.InHand vs) (hr : t.run n i = some (r, j)) :
    ∃ w', w <+: w' ∧ Agreed w' j (t.results r ++ vs) := by
  have ho := ordering n
  cases t with
  | eval e => exact h.results (ho.eval w e) (fun _ _ hv => List.forall_mem_singleton.mpr hv) hr
  | arms m as =>
    exact h.results (ho.evalArms w m as) (fun _ _ hv => List.forall_mem_singleton.mpr hv) hr
  | step s => exact h.results (ho.evalStep w s) (fun _ _ _ => nofun) hr
  | count m x by_ last body counter =>
    exact h.results (ho.countFrom w m x by_ last body counter) (fun _ _ _ => nofun) hr
  | loop test body => exact h.results (ho.repeatWhile w test body) (fun _ _ _ => nofun) hr
  | all es => exact h.results (ho.evalAll w es) (fun _ _ hvs => hvs) hr
  | apply f args m =>
    obtain ⟨⟨v, hv, hf⟩, hargs⟩ := ht
    have hs : (Datum.function f).Follows w := hf ▸ h.2 v hv
    exact h.results (ho.apply w f args m hs fun u hu => h.2 u (hargs hu))
      (fun _ _ hv => List.forall_mem_singleton.mpr hv) hr

/-- In every state of a session all environments are well-formed, those of functions that are bound
in any scope or in hand included. This holds after any programs, and for every task that the
evaluation of one comes to, with the values that are then in hand, and for what comes of the task;
the environments of its callers are well-formed there still. -/
theorem environments_wellFormed (hi : Reachable i vs) :
    ∃ w, WellFormed w i vs ∧
      (∀ ss j, Programs i ss j → ∃ w' vs', Continues w i vs w' j vs' ∧ Reachable j vs') ∧
      ∀ fuel t calls n t' j, t.InHand vs → Visits fuel t i calls n t' j →
        ∃ w' vs', Continues w i vs w' j vs' ∧ Reachable j vs' ∧ t'.InHand vs' ∧
          ∀ r k, t'.run n j = some (r, k) →
            ∃ w'', Continues w' j vs' w'' k (t'.results r ++ vs') := by
  obtain ⟨w, hw⟩ := hi.agreed
  refine ⟨w, hw.wellFormed, ?_, ?_⟩
  · intro ss j hj
    obtain ⟨vs', ho⟩ := hj.onward vs
    obtain ⟨w', hext, hw'⟩ := ho.agreed w hw
    exact ⟨w', vs', hw.continues hw' hext ho.inHand, ho.reachable hi⟩
  · intro fuel t calls n t' j ht hv
    obtain ⟨vs', ho, ht'⟩ := hv.onward ht
    obtain ⟨w', hext, hw'⟩ := ho.agreed w hw
    refine ⟨w', vs', hw.continues hw' hext ho.inHand, ho.reachable hi, ht', ?_⟩
    intro r k hr
    obtain ⟨w'', hext', hw''⟩ := hw'.run ht' hr
    exact ⟨w'', hw'.continues hw'' hext' (List.subset_append_right _ _)⟩

/-- After `FUN f(n) -> FUN () -> g` and `VAR g = f(1)` the outermost scope binds a function that was
made in a scope inside of it. -/
theorem environments_wellFormed_circle :
    ∃ j w v, Programs (global []) [⟨"b", "VAR g = f(1)"⟩, ⟨"a", "FUN f(n) -> FUN () -> g"⟩] j ∧
      (j.store.scope 0).get? "g" = some v ∧ v.datum.environment? = some ⟨1, [0]⟩ ∧
      Environment.WellFormed w j.store ⟨1, [0]⟩ := by
  let a : Source := ⟨"a", "FUN f(n) -> FUN () -> g"⟩
  let b : Source := ⟨"b", "VAR g = f(1)"⟩
  have hrun : ((evalSource 30 a (global [])).bind fun p => (evalSource 30 b p.2).bind fun q =>
      ((q.2.store.scope 0).get? "g").bind fun v => v.datum.environment?) = some ⟨1, [0]⟩ := by
    decide +kernel
  obtain ⟨⟨_, i⟩, ha, hrun⟩ := Option.bind_eq_some_iff.mp hrun
  obtain ⟨⟨_, j⟩, hb, hrun⟩ := Option.bind_eq_some_iff.mp hrun
  obtain ⟨v, hv, he⟩ := Option.bind_eq_some_iff.mp hrun
  have hi : Programs (global []) [a] i := .program .start ha
  have hj : Programs (global []) [b, a] j := .program hi hb
  obtain ⟨w, -, hprograms, -⟩ := environments_wellFormed (.global [])
  obtain ⟨w', vs', hcontinues, -⟩ := hprograms _ _ hj
  exact ⟨j, w', v, hj, hv, he, hcontinues.wellFormed.held _ (.captured (.bound hv) he)⟩

end Interpreter

end Minibasic

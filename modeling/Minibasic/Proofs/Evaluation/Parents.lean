import Minibasic.Proofs.Environment.Bindings
import Minibasic.Proofs.Evaluation.Frame
import Minibasic.Proofs.Evaluation.Invariant

/-!
The parents of scopes. Environments are lists of scopes, but all of them agree on what is around a
scope: there is a table with the parent of every scope that each environment follows, the current
one and those that functions were made in. Evaluation only adds to the table.
-/

namespace Minibasic

/-- The parent of every scope, at the place of its number; the outermost scopes have none. -/
abbrev Parents := List (Option ScopeId)

/-- Each scope of the chain is the parent of the one before it, made earlier than that, and the
last one has no parent. -/
def Parents.Ranks (w : Parents) : List ScopeId → Prop
  | [] => False
  | [id] => w[id]? = some none
  | id :: p :: rest => w[id]? = some (some p) ∧ p < id ∧ w.Ranks (p :: rest)

/-- A function of the program was made in an environment that follows the table. -/
def Datum.Follows (w : Parents) : Datum → Prop
  | .function (.closure _ _ _ e) => w.Ranks e.chain
  | _ => True

namespace Parents

variable {w w' : Parents}

theorem getElem?_mono {id : ScopeId} {p : Option ScopeId} (hw : w <+: w')
    (h : w[id]? = some p) : w'[id]? = some p := by
  obtain ⟨hid, rfl⟩ := List.getElem?_eq_some_iff.mp h
  exact List.prefix_iff_getElem?.mp hw id hid

theorem Ranks.mono (hw : w <+: w') : ∀ {c : List ScopeId}, w.Ranks c → w'.Ranks c
  | [], h => h
  | [_], h => getElem?_mono hw h
  | _ :: _ :: _, h => ⟨getElem?_mono hw h.1, h.2.1, Ranks.mono hw h.2.2⟩

theorem Ranks.head_lt {id : ScopeId} {c : List ScopeId} (h : w.Ranks (id :: c)) :
    id < w.length := by
  have hid : ∃ p, w[id]? = some p := by
    cases c with
    | nil => exact ⟨none, h⟩
    | cons p c => exact ⟨some p, h.1⟩
  obtain ⟨p, hp⟩ := hid
  obtain ⟨hid, -⟩ := List.getElem?_eq_some_iff.mp hp
  exact hid

theorem Ranks.lt_of_mem : ∀ {c : List ScopeId}, w.Ranks c → ∀ id ∈ c, id < w.length
  | [a], h, id, hid => by
    rw [List.mem_singleton.mp hid]
    exact h.head_lt
  | a :: b :: c, h, id, hid => by
    rcases List.mem_cons.mp hid with rfl | hid
    · exact h.head_lt
    · exact lt_of_mem h.2.2 id hid

/-- A new scope inside an environment has the scope of that as its parent. -/
theorem Ranks.child {e : Environment} (h : w.Ranks e.chain) :
    Ranks (w ++ [some e.scope]) (e.child w.length).chain := by
  exact ⟨List.getElem?_concat_length, h.head_lt, h.mono ⟨_, rfl⟩⟩

end Parents

theorem Datum.Follows.mono {w w' : Parents} (hw : w <+: w') {d : Datum} (h : d.Follows w) :
    d.Follows w' := by
  cases d with
  | number n => trivial
  | string s => trivial
  | function f =>
    cases f with
    | closure x ps body e => exact Parents.Ranks.mono hw h
    | builtin b => trivial

theorem Datum.Follows.of_plain {w : Parents} {d : Datum} (h : d.Plain) : d.Follows w := by
  cases d with
  | number n => trivial
  | string s => trivial
  | function f => exact absurd rfl (h f)

/-- All functions that are bound in some scope follow the table. -/
def Store.Follows (w : Parents) (s : Store) : Prop :=
  ∀ id x v, (s.scope id).get? x = some v → v.datum.Follows w

theorem Store.Follows.mono {w w' : Parents} {s : Store} (hw : w <+: w') (h : s.Follows w) :
    s.Follows w' :=
  Store.Binds.mono (fun _ hd => hd.mono hw) h

namespace Interpreter

/-- The table has a place for each scope, and the current environment and all functions that are
bound follow it. -/
structure Ordered (w : Parents) (i : Interpreter) : Prop where
  size : w.length = i.store.size
  environment : w.Ranks i.environment.chain
  store : i.store.Follows w

variable {α β : Type} {w : Parents}

/-- From a state that is ordered by `w`, the computation comes to one that is ordered by an
extension of `w`, for which `Q` holds of its result. -/
def Extends (w : Parents) (m : Eval α) (Q : Parents → α → Prop) : Prop :=
  ∀ i, i.Ordered w → ∀ r i', m i = some (r, i') →
    ∃ w', w <+: w' ∧ i'.Ordered w' ∧ ∀ a, r = .ok a → Q w' a

/-- The value is no function, or one that follows the table. -/
def Sound (w : Parents) (v : Value) : Prop := v.datum.Follows w

theorem Ordered.define {i : Interpreter} {v : Value} (hi : i.Ordered w) (hv : Sound w v)
    (id : ScopeId) (x : String) : Ordered w { i with store := i.store.define id x v } where
  size := by
    rw [Store.size_define, hi.size]
  environment := hi.environment
  store := Store.Binds.define hi.store id x hv

/-- The scope of a call extends the table. -/
theorem Ordered.opened {i : Interpreter} {e : Environment} {vs : List Value} (hi : i.Ordered w)
    (he : w.Ranks e.chain) (hvs : ∀ v ∈ vs, Sound w v) (ps : List String) :
    (i.opened e ps vs).Ordered (w ++ [some e.scope]) where
  size := by
    rw [size_opened, List.length_append, hi.size]
    rfl
  environment := by
    have hc := he.child
    rw [hi.size] at hc
    exact hc
  store := by
    have hg : i.store.Follows (w ++ [some e.scope]) := hi.store.mono ⟨_, rfl⟩
    exact (Store.Binds.grow hg).defineAll _ ps fun v hv => (hvs v hv).mono ⟨_, rfl⟩

/-- The table as an invariant of evaluation, in which every table that extends another is later. -/
def parentage : Invariant Parents where
  Later := (· <+: ·)
  State w i := i.Ordered w
  Data w d := d.Follows w
  Admits _ _ := True
  refl := List.prefix_refl
  trans := List.IsPrefix.trans
  data_mono hw hd := hd.mono hw
  admits_mono _ _ := trivial
  child _ _ := trivial
  plain hd := .of_plain hd
  builtin _ _ := trivial
  bound hi hv := Store.Binds.lookup hi.store hv
  define hi hv := hi.define hv _ _
  closure hi _ := hi.environment
  enter {w i} _ ps _ e vs hi he hvs c := by
    have ho := hi.opened he hvs ps
    refine ⟨w ++ [some e.scope], ⟨ho.size, ho.environment, ho.store⟩, trivial, ?_⟩
    intro w' j hw hj
    -- The caller's environment follows the longer table as well.
    have hww : w <+: w' := .trans ⟨_, rfl⟩ hw
    exact ⟨w', hww, ⟨hj.size, hi.environment.mono hww, hj.store⟩, fun _ hd => hd⟩
  argument {w i} vs hi hvs ps console := by
    have ho := hi.opened hi.environment hvs ps
    have hww : w <+: w ++ [some i.environment.scope] := ⟨_, rfl⟩
    exact ⟨_, hww, ho.size, hi.environment.mono hww, ho.store⟩

/-- With this fuel every part of the evaluator keeps to an extension of the table. -/
structure Ordering (fuel : Nat) : Prop where
  eval : ∀ w e, Extends w (eval fuel e) Sound
  evalArms : ∀ w m as, Extends w (evalArms fuel m as) Sound
  evalStep : ∀ w s, Extends w (evalStep fuel s) fun _ _ => True
  countFrom : ∀ w m x by_ last body n,
    Extends w (countFrom fuel m x by_ last body n) fun _ _ => True
  repeatWhile : ∀ w test body, Extends w (repeatWhile fuel test body) fun _ _ => True
  evalAll : ∀ w es, Extends w (evalAll fuel es) fun w vs => ∀ v ∈ vs, Sound w v
  apply : ∀ w f vs m, (Datum.function f).Follows w → (∀ v ∈ vs, Sound w v) →
    Extends w (apply fuel f vs m) Sound

theorem ordering (fuel : Nat) : Ordering fuel where
  eval w e := (parentage.keeping fuel).eval w e trivial
  evalArms w m as := (parentage.keeping fuel).evalArms w m as fun _ _ => trivial
  evalStep w s := (parentage.keeping fuel).evalStep w s fun _ _ => trivial
  countFrom w m x by_ last body n :=
    (parentage.keeping fuel).countFrom w m x by_ last body n trivial
  repeatWhile w test body := (parentage.keeping fuel).repeatWhile w test body trivial trivial
  evalAll w es := (parentage.keeping fuel).evalAll w es fun _ _ => trivial
  apply w := (parentage.keeping fuel).apply w

end Interpreter

end Minibasic

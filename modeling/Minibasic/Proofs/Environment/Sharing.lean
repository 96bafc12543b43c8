import Mathlib.Data.List.Basic
import Minibasic.Builtin

/-!
Environments that share scopes. A program holds any number of environments, which it makes from
nothing, inside one another or as copies; what it defines in one of them is seen in those that have
the same scope, as far as no scope further in hides it.
-/

namespace Minibasic

namespace Store

variable {s s' : Store} {id : ScopeId} {ids : List ScopeId} {x m : String} {v : Value}

/-- The scope `id` is among those that are searched, and none before it binds `x`. -/
def Exposes (s : Store) (ids : List ScopeId) (id : ScopeId) (x : String) : Prop :=
  ∃ inner outer, ids = inner ++ id :: outer ∧ ∀ a ∈ inner, (s.scope a).get? x = none

/-- A definition is found where its scope is exposed. -/
theorem lookup_define_of_exposes (hid : id < s.size) (h : s.Exposes ids id x) :
    (ids.findSome? fun a => ((s.define id x v).scope a).get? x) = some v := by
  obtain ⟨inner, outer, rfl, hinner⟩ := h
  -- The scope itself may be further in as well, and then it is found there.
  induction inner with
  | nil => rw [List.nil_append, List.findSome?_cons, get?_define _ hid, if_pos ⟨rfl, rfl⟩]
  | cons a inner ih =>
    rw [List.cons_append, List.findSome?_cons, get?_define _ hid]
    by_cases ha : a = id
    · rw [if_pos ⟨rfl, ha⟩]
    · rw [if_neg fun h => ha h.2, hinner a List.mem_cons_self]
      exact ih fun b hb => hinner b (List.mem_cons_of_mem a hb)

/-- Other names are not affected, nor is any name where the scope is not exposed. -/
theorem lookup_define_of_not_exposes (hid : id < s.size) (h : ¬(m = x ∧ s.Exposes ids id x)) :
    (ids.findSome? fun a => ((s.define id x v).scope a).get? m) =
      ids.findSome? fun a => (s.scope a).get? m := by
  induction ids with
  | nil => rfl
  | cons a ids ih =>
    have ha : ¬(m = x ∧ a = id) := by
      rintro ⟨rfl, rfl⟩
      exact h ⟨rfl, [], ids, rfl, nofun⟩
    rw [List.findSome?_cons, List.findSome?_cons, get?_define _ hid, if_neg ha]
    cases hm : (s.scope a).get? m with
    | some u => rfl
    | none =>
      refine ih ?_
      rintro ⟨rfl, inner, outer, rfl, hinner⟩
      exact h ⟨rfl, a :: inner, outer, rfl, List.forall_mem_cons.mpr ⟨hm, hinner⟩⟩

/-- What is seen in an environment depends on its own scopes only. -/
theorem lookup_congr {e : Environment} (h : ∀ a ∈ e.chain, s'.scope a = s.scope a) (m : String) :
    s'.lookup e m = s.lookup e m := by
  unfold lookup
  generalize e.chain = ids at h
  induction ids with
  | nil => rfl
  | cons a ids ih =>
    rw [List.findSome?_cons, List.findSome?_cons, h a List.mem_cons_self,
      ih fun b hb => h b (List.mem_cons_of_mem a hb)]

end Store

/-- The environments that a program holds, each in a place of its own, and the store that they
share. A place is empty if its environment has been dropped. -/
structure Holdings where
  store : Store
  places : List (Option Environment)

/-- Where an environment comes from. -/
inductive Making where
  | new
  | global
  | child (k : Nat)
  | clone (k : Nat)

/-- What a program does with the environments that it holds. -/
inductive Action where
  | add (c : Making)
  | replace (k : Nat) (c : Making)
  | define (k : Nat) (x : String) (v : Value)
  | drop (k : Nat)

/-- The place that loses its environment. -/
def Action.target? : Action → Option Nat
  | replace k _ | drop k => some k
  | add _ | define _ _ _ => none

namespace Holdings

def env? (hs : Holdings) (k : Nat) : Option Environment := hs.places[k]?.join

def get? (hs : Holdings) (k : Nat) (m : String) : Option Value :=
  (hs.env? k).bind fun e => hs.store.lookup e m

def depth? (hs : Holdings) (k : Nat) : Option Nat := (hs.env? k).map Environment.depth

/-- A new environment, and the store with it. -/
def make? (hs : Holdings) : Making → Option (Environment × Store)
  | .new => some hs.store.newRoot
  | .global => some hs.store.newGlobal
  | .child k => (hs.env? k).map hs.store.newChild
  | .clone k => (hs.env? k).map fun e => (e, hs.store)

/-- An action on environments that are there. -/
inductive Step (hs : Holdings) : Action → Holdings → Prop
  | add {c : Making} {e : Environment} {s : Store} : hs.make? c = some (e, s) →
      Step hs (.add c) ⟨s, hs.places ++ [some e]⟩
  | replace {k : Nat} {c : Making} {old e : Environment} {s : Store} : hs.env? k = some old →
      hs.make? c = some (e, s) → Step hs (.replace k c) ⟨s, hs.places.set k (some e)⟩
  | define {k : Nat} {e : Environment} (x : String) (v : Value) : hs.env? k = some e →
      Step hs (.define k x v) { hs with store := hs.store.define e.scope x v }
  | drop {k : Nat} {old : Environment} : hs.env? k = some old →
      Step hs (.drop k) { hs with places := hs.places.set k none }

/-- The holdings that a program comes to by any actions, from none. -/
inductive Built : Holdings → Prop
  | none (s : Store) : Built ⟨s, []⟩
  | step {hs hs' : Holdings} {a : Action} : Built hs → hs.Step a hs' → Built hs'

variable {hs hs' : Holdings} {k : Nat} {e : Environment} {c : Making} {a : Action}

/-- The scopes of all environments exist. -/
def Valid (hs : Holdings) : Prop := ∀ k e, hs.env? k = some e → ∀ a ∈ e.chain, a < hs.store.size

/-- A new environment has scopes that exist, and those that there were stay as they are. -/
structure Made (s : Store) (e : Environment) (s' : Store) : Prop where
  chain : ∀ a ∈ e.chain, a < s'.size
  size : s.size ≤ s'.size
  scope : ∀ a < s.size, s'.scope a = s.scope a

theorem made_newRoot (s : Store) : Made s s.newRoot.1 s.newRoot.2 where
  chain a ha := by
    rw [List.mem_singleton.mp ha]
    exact (Store.size_grow s).symm ▸ Nat.lt_succ_self _
  size := (Store.size_grow s).symm ▸ Nat.le_succ _
  scope a _ := Store.scope_grow s a

theorem made_newGlobal (s : Store) : Made s s.newGlobal.1 s.newGlobal.2 where
  chain := by
    unfold Store.newGlobal
    rw [Store.size_foldl_define]
    exact (made_newRoot s).chain
  size := by
    unfold Store.newGlobal
    rw [Store.size_foldl_define]
    exact (made_newRoot s).size
  scope a ha := by
    have hne : a ≠ s.newRoot.1.scope := Nat.ne_of_lt ha
    exact (Store.scope_foldl_define_of_ne _ _ hne).trans ((made_newRoot s).scope a ha)

theorem made_newChild {s : Store} (he : ∀ a ∈ e.chain, a < s.size) :
    Made s (s.newChild e).1 (s.newChild e).2 where
  chain := by
    change ∀ a ∈ s.fresh :: e.chain, a < s.grow.size
    rw [Store.size_grow]
    exact List.forall_mem_cons.mpr ⟨Nat.lt_succ_self _, fun a ha => Nat.lt_succ_of_lt (he a ha)⟩
  size := (Store.size_grow s).symm ▸ Nat.le_succ _
  scope a _ := Store.scope_grow s a

theorem Valid.make {s : Store} (hv : hs.Valid) (hm : hs.make? c = some (e, s)) :
    Made hs.store e s := by
  cases c with
  | new =>
    cases hm
    exact made_newRoot _
  | global =>
    cases hm
    exact made_newGlobal _
  | child k =>
    obtain ⟨e', he', heq⟩ := Option.map_eq_some_iff.mp hm
    cases heq
    exact made_newChild (hv k e' he')
  | clone k =>
    obtain ⟨e', he', heq⟩ := Option.map_eq_some_iff.mp hm
    cases heq
    exact ⟨hv k e he', Nat.le_refl _, fun _ _ => rfl⟩

theorem env?_set (hs : Holdings) (s : Store) (k : Nat) (o : Option Environment) (k' : Nat) :
    env? ⟨s, hs.places.set k o⟩ k' = if k = k' ∧ k < hs.places.length then o else hs.env? k' := by
  unfold env?
  rw [List.getElem?_set]
  by_cases hk : k = k'
  · subst hk
    by_cases hlt : k < hs.places.length
    · simp [hlt]
    · simp [hlt]
  · simp [hk]

theorem env?_append (hs : Holdings) (s : Store) (e : Environment) (k : Nat) :
    env? ⟨s, hs.places ++ [some e]⟩ k = if k = hs.places.length then some e else hs.env? k := by
  unfold env?
  rw [List.getElem?_append]
  by_cases hlt : k < hs.places.length
  · simp [hlt, Nat.ne_of_lt hlt]
  · by_cases hk : k = hs.places.length
    · simp [hk]
    · have hnone : [some e][k - hs.places.length]? = none := by
        rw [List.getElem?_eq_none_iff, List.length_singleton]
        omega
      simp [hlt, hk, hnone]

/-- The environments after an action are those from before, and that which is made. -/
theorem Step.env? (h : hs.Step a hs') (he : hs'.env? k = some e) :
    hs.env? k = some e ∨ ∃ c, hs.make? c = some (e, hs'.store) := by
  cases h with
  | add hm =>
    rw [env?_append] at he
    split at he
    · cases he
      exact .inr ⟨_, hm⟩
    · exact .inl he
  | replace _ hm =>
    rw [env?_set] at he
    split at he
    · cases he
      exact .inr ⟨_, hm⟩
    · exact .inl he
  | define x v _ => exact .inl he
  | drop _ =>
    rw [env?_set] at he
    split at he
    · cases he
    · exact .inl he

/-- An environment stays in its place if it is not the one that goes. -/
theorem Step.env?_of_ne (h : hs.Step a hs') (hk : a.target? ≠ some k) (he : hs.env? k = some e) :
    hs'.env? k = some e := by
  cases h with
  | add hm =>
    have hne : k ≠ hs.places.length := by
      rintro rfl
      simp [Holdings.env?] at he
    rw [env?_append, if_neg hne]
    exact he
  | replace _ _ | drop _ =>
    rw [env?_set, if_neg fun h => hk (congrArg some h.1)]
    exact he
  | define x v _ => exact he

theorem Step.size_le (h : hs.Step a hs') (hv : hs.Valid) : hs.store.size ≤ hs'.store.size := by
  cases h with
  | add hm | replace _ hm => exact (hv.make hm).size
  | define x v _ => exact Nat.le_of_eq (Store.size_define _ _ _ _).symm
  | drop _ => exact Nat.le_refl _

theorem Step.valid (h : hs.Step a hs') (hv : hs.Valid) : hs'.Valid := by
  intro k e he
  rcases h.env? he with hold | ⟨c, hm⟩
  · exact fun a ha => Nat.lt_of_lt_of_le (hv k e hold a ha) (h.size_le hv)
  · exact (hv.make hm).chain

theorem Built.valid (h : Built hs) : hs.Valid := by
  induction h with
  | none s => exact nofun
  | step _ h ih => exact h.valid ih

/-- The scope that is written is the innermost one of an environment that is held. Other actions
write no scope that there is. -/
theorem Step.scope (h : hs.Step a hs') (hv : hs.Valid) (ha : ∀ k x v, a ≠ .define k x v) :
    ∀ b < hs.store.size, hs'.store.scope b = hs.store.scope b := by
  cases h with
  | add hm | replace _ hm => exact (hv.make hm).scope
  | define x v _ => exact absurd rfl (ha _ x v)
  | drop _ => exact fun _ _ => rfl

theorem get?_eq (he : hs.env? k = some e) (m : String) : hs.get? k m = hs.store.lookup e m := by
  rw [get?, he, Option.bind_some]

theorem depth?_eq (he : hs.env? k = some e) : hs.depth? k = some e.depth := by
  rw [depth?, he, Option.map_some]

/-- However a program has come to the environments that it holds: after a definition a name that is
looked up in any of them is found to be defined so if it is the same name, its scope is among those
of the environment and no scope further in binds it; every other look-up has the result that it had
before. Making, replacing and dropping environments has no effect on the others. The depths of
environments never change. -/
theorem sharing_law (hb : Built hs) :
    (∀ k x v hs' e k' e', hs.Step (.define k x v) hs' → hs.env? k = some e →
      hs.env? k' = some e' → hs'.depth? k' = hs.depth? k' ∧ ∀ m,
        (m = x ∧ hs.store.Exposes e'.chain e.scope x → hs'.get? k' m = some v) ∧
        (¬(m = x ∧ hs.store.Exposes e'.chain e.scope x) → hs'.get? k' m = hs.get? k' m)) ∧
    ∀ a hs' k' e', hs.Step a hs' → (∀ k x v, a ≠ .define k x v) → a.target? ≠ some k' →
      hs.env? k' = some e' →
        hs'.depth? k' = hs.depth? k' ∧ ∀ m, hs'.get? k' m = hs.get? k' m := by
  have hv := hb.valid
  constructor
  · intro k x v hs' e k' e' hstep he he'
    have hafter := hstep.env?_of_ne nofun he'
    refine ⟨(depth?_eq hafter).trans (depth?_eq he').symm, fun m => ?_⟩
    have hid : e.scope < hs.store.size := hv k e he e.scope List.mem_cons_self
    rw [get?_eq hafter, get?_eq he']
    cases hstep with
    | define x v hk =>
      cases he.symm.trans hk
      constructor
      · rintro ⟨rfl, hexposes⟩
        exact Store.lookup_define_of_exposes hid hexposes
      · exact Store.lookup_define_of_not_exposes hid
  · intro a hs' k' e' hstep ha htarget he'
    have hafter := hstep.env?_of_ne htarget he'
    refine ⟨(depth?_eq hafter).trans (depth?_eq he').symm, fun m => ?_⟩
    rw [get?_eq hafter, get?_eq he']
    exact Store.lookup_congr (fun b hb => hstep.scope hv ha b (hv k' e' he' b hb)) m

/-- What is defined outside is seen inside, and is still seen when the outer environment has been
replaced. -/
theorem sharing_law_outer :
    let v : Value := { datum := .int 1 }
    ∃ hs hs' hs'', Built hs ∧ hs.Step (.define 0 "x" v) hs' ∧ hs'.get? 1 "x" = some v ∧
      hs'.Step (.replace 0 .new) hs'' ∧ hs''.get? 1 "x" = some v := by
  intro v
  let hs : Holdings := ⟨Store.empty.grow.grow, [some ⟨0, []⟩, some ⟨1, [0]⟩]⟩
  have hroot : Step ⟨.empty, []⟩ (.add .new) ⟨Store.empty.grow, [some ⟨0, []⟩]⟩ := .add rfl
  have hchild : Step ⟨Store.empty.grow, [some ⟨0, []⟩]⟩ (.add (.child 0)) hs := .add rfl
  have hb : Built hs := ((Built.none .empty).step hroot).step hchild
  let hs' : Holdings := { hs with store := hs.store.define 0 "x" v }
  let hs'' : Holdings := ⟨hs'.store.grow, [some ⟨2, []⟩, some ⟨1, [0]⟩]⟩
  have hdefine : hs.Step (.define 0 "x" v) hs' := .define (e := ⟨0, []⟩) "x" v rfl
  have hreplace : hs'.Step (.replace 0 .new) hs'' := .replace rfl rfl
  have hexposes : hs.store.Exposes [1, 0] 0 "x" :=
    ⟨[1], [], rfl, fun a ha => List.mem_singleton.mp ha ▸ rfl⟩
  have hseen := ((sharing_law hb).1 0 "x" v _ ⟨0, []⟩ 1 ⟨1, [0]⟩ hdefine rfl rfl).2 "x"
  have hkept := (sharing_law (hb.step hdefine)).2 _ _ 1 ⟨1, [0]⟩ hreplace nofun nofun rfl
  have hv := hseen.1 ⟨rfl, hexposes⟩
  exact ⟨hs, hs', hs'', hb, hdefine, hv, hreplace, (hkept.2 "x").trans hv⟩

end Holdings

end Minibasic

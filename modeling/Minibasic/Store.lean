import Minibasic.Value

/-!
The scopes of a session and what they bind. Scopes are only ever added; an environment that holds
the number of a scope sees all that is bound in it later on.
-/

namespace Minibasic

/-- The bindings of a scope, with one value for each name, in order of definition. -/
abbrev Scope := List (String × Value)

namespace Scope

/-- The scope with `name` bound to `v`, in place of what it was bound to before. -/
def insert (name : String) (v : Value) : Scope → Scope
  | [] => [(name, v)]
  | b :: bs => if b.1 = name then (name, v) :: bs else b :: insert name v bs

def get? (name : String) : Scope → Option Value
  | [] => none
  | b :: bs => if b.1 = name then some b.2 else get? name bs

theorem get?_insert (name m : String) (v : Value) (s : Scope) :
    (s.insert name v).get? m = if m = name then some v else s.get? m := by
  induction s with
  | nil => simp [insert, get?, eq_comm]
  | cons b bs ih =>
    by_cases hb : b.1 = name
    · by_cases hm : m = name
      · simp [insert, get?, hb, hm]
      · have : ¬name = m := fun h => hm h.symm
        simp [insert, get?, hb, hm, this]
    · by_cases hm : b.1 = m
      · have : ¬m = name := fun h => hb (hm.trans h)
        simp [insert, get?, hm, this]
      · simp [insert, get?, hb, hm, ih]

end Scope

/-- Every scope of a session, at the place of its number. -/
structure Store where
  scopes : Array Scope

namespace Store

def empty : Store := ⟨#[]⟩

def size (s : Store) : Nat := s.scopes.size

def scope (s : Store) (id : ScopeId) : Scope := s.scopes.getD id []

/-- The number that the next scope gets. -/
def fresh (s : Store) : ScopeId := s.scopes.size

/-- The store with one more scope, which binds nothing. -/
def grow (s : Store) : Store := ⟨s.scopes.push []⟩

/-- The store with `name` bound to `v` in the scope `id`. -/
def define (s : Store) (id : ScopeId) (name : String) (v : Value) : Store :=
  ⟨s.scopes.modify id (Scope.insert name v)⟩

/-- Binds names to values in pairs. -/
def defineAll (s : Store) (id : ScopeId) (names : List String) (vs : List Value) : Store :=
  (names.zip vs).foldl (fun s b => s.define id b.1 b.2) s

@[simp] theorem size_grow (s : Store) : s.grow.size = s.size + 1 := by
  simp [grow, size]

@[simp] theorem size_define (s : Store) (id : ScopeId) (name : String) (v : Value) :
    (s.define id name v).size = s.size := by
  simp [define, size]

@[simp] theorem scope_grow (s : Store) (id : ScopeId) : s.grow.scope id = s.scope id := by
  simp only [scope, grow, Array.getD_eq_getD_getElem?, Array.getElem?_push]
  by_cases h : id = s.scopes.size
  · simp [h]
  · simp [h]

/-- A number that no scope has bears no bindings. -/
theorem scope_of_size_le (s : Store) {id : ScopeId} (h : s.size ≤ id) : s.scope id = [] := by
  have hnone : s.scopes[id]? = none := Array.getElem?_eq_none h
  rw [scope, Array.getD_eq_getD_getElem?, hnone]
  rfl

theorem scope_define (s : Store) (id k : ScopeId) (name : String) (v : Value) :
    (s.define id name v).scope k =
      if k = id ∧ id < s.size then (s.scope id).insert name v else s.scope k := by
  simp only [scope, define, size, Array.getD_eq_getD_getElem?, Array.getElem?_modify]
  by_cases hk : k = id
  · subst hk
    by_cases hs : k < s.scopes.size
    · simp [hs]
    · simp [hs]
  · have hk' : ¬id = k := fun h => hk h.symm
    simp [hk, hk']

theorem scope_define_of_ne (s : Store) {id k : ScopeId} (name : String) (v : Value) (h : k ≠ id) :
    (s.define id name v).scope k = s.scope k := by
  rw [scope_define, if_neg fun hk => h hk.1]

theorem get?_define (s : Store) {id : ScopeId} (hid : id < s.size) (k : ScopeId) (name m : String)
    (v : Value) : ((s.define id name v).scope k).get? m =
      if m = name ∧ k = id then some v else (s.scope k).get? m := by
  rw [scope_define]
  by_cases hk : k = id
  · rw [if_pos ⟨hk, hid⟩, Scope.get?_insert, hk]
    simp
  · rw [if_neg fun h => hk h.1, if_neg fun h => hk h.2]

theorem size_foldl_define (s : Store) (id : ScopeId) (bs : List (String × Value)) :
    (bs.foldl (fun s b => s.define id b.1 b.2) s).size = s.size := by
  induction bs generalizing s with
  | nil => rfl
  | cons b bs ih => rw [List.foldl_cons, ih, size_define]

@[simp] theorem size_defineAll (s : Store) (id : ScopeId) (names : List String)
    (vs : List Value) : (s.defineAll id names vs).size = s.size :=
  size_foldl_define s id _

theorem scope_foldl_define_of_ne (s : Store) {id k : ScopeId} (bs : List (String × Value))
    (h : k ≠ id) : (bs.foldl (fun s b => s.define id b.1 b.2) s).scope k = s.scope k := by
  induction bs generalizing s with
  | nil => rfl
  | cons b bs ih => rw [List.foldl_cons, ih, scope_define_of_ne _ _ _ h]

theorem scope_defineAll_of_ne (s : Store) {id k : ScopeId} (names : List String)
    (vs : List Value) (h : k ≠ id) : (s.defineAll id names vs).scope k = s.scope k :=
  scope_foldl_define_of_ne s _ h

/-- The value of `name` in the first scope of the environment that binds it. -/
def lookup (s : Store) (e : Environment) (name : String) : Option Value :=
  e.chain.findSome? fun id => (s.scope id).get? name

end Store

end Minibasic

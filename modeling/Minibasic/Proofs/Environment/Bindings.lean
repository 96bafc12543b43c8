import Minibasic.Builtin

/-!
What all bound data have in common. A property of data that every value has when it is bound holds
of all that can be looked up.
-/

namespace Minibasic.Store

variable {P P' : Datum → Prop} {s : Store}

/-- Every datum that some scope binds has the property. -/
def Binds (P : Datum → Prop) (s : Store) : Prop :=
  ∀ id x v, (s.scope id).get? x = some v → P v.datum

namespace Binds

theorem mono (hP : ∀ d, P d → P' d) (h : s.Binds P) : s.Binds P' :=
  fun id x v hv => hP _ (h id x v hv)

theorem grow (h : s.Binds P) : s.grow.Binds P := by
  intro id x v hv
  rw [scope_grow] at hv
  exact h id x v hv

theorem define (h : s.Binds P) (id : ScopeId) (x : String) {v : Value} (hv : P v.datum) :
    (s.define id x v).Binds P := by
  intro k y u hu
  rw [scope_define] at hu
  split at hu
  · rw [Scope.get?_insert] at hu
    split at hu
    · cases hu
      exact hv
    · exact h id y u hu
  · exact h k y u hu

theorem foldl_define (h : s.Binds P) (id : ScopeId) {bs : List (String × Value)}
    (hbs : ∀ b ∈ bs, P b.2.datum) :
    (bs.foldl (fun s b => s.define id b.1 b.2) s).Binds P := by
  induction bs generalizing s with
  | nil => exact h
  | cons b bs ih =>
    have hb := h.define id b.1 (hbs b List.mem_cons_self)
    exact ih hb fun c hc => hbs c (List.mem_cons_of_mem b hc)

theorem defineAll (h : s.Binds P) (id : ScopeId) (names : List String) {vs : List Value}
    (hvs : ∀ v ∈ vs, P v.datum) : (s.defineAll id names vs).Binds P :=
  h.foldl_define id fun _ hb => hvs _ (List.of_mem_zip hb).2

theorem lookup (h : s.Binds P) {e : Environment} {x : String} {v : Value}
    (hv : s.lookup e x = some v) : P v.datum := by
  obtain ⟨id, -, hid⟩ := List.exists_of_findSome?_eq_some hv
  exact h id x v hid

theorem empty : Store.empty.Binds P := by
  intro id x v hv
  rw [scope_of_size_le _ (Nat.zero_le id)] at hv
  cases hv

end Binds

/-- The predefined names are bound to integers and to built-in functions. -/
theorem binds_newGlobal (hint : ∀ n, P (.int n)) (hbuiltin : ∀ b, P (.function (.builtin b))) :
    Store.empty.newGlobal.2.Binds P := by
  refine Binds.empty.grow.foldl_define _ fun b hb => ?_
  rcases List.mem_append.mp hb with hb | hb
  · simp only [List.mem_cons, List.not_mem_nil, or_false] at hb
    rcases hb with rfl | rfl | rfl <;> exact hint _
  · obtain ⟨f, -, rfl⟩ := List.mem_map.mp hb
    exact hbuiltin f

end Minibasic.Store

import Minibasic.Proofs.Evaluation.History

/-!
What evaluation leaves alone. Only the current scope is written, and no name is lost from it; the
scope of a call is not written any more once the call has ended.
-/

namespace Minibasic

/-- An effect that comes after another does not bind anything in a scope that the other leaves. -/
def Effect.Spares (a b : Effect) : Prop := ∀ s left x, a = .leave s left → b ≠ .bind s x

/-- Where the effect may be: bindings are made in the current scope or in one that is new, and the
scopes of calls are new. -/
def Effect.Within (i i' : Interpreter) : Effect → Prop
  | .bind id _ => id = i.environment.scope ∨ i.store.size ≤ id
  | .enter id | .leave id _ => i.store.size ≤ id ∧ id < i'.store.size

namespace Interpreter

variable {α : Type} {m : Eval α} {i j i' : Interpreter} {r : Except Diagnostic α} {h : List Effect}

/-- The second interpreter is in the frame of the first, and its scopes are those of the first but
for the current one, which binds all that it did bind. -/
structure Framed (i i' : Interpreter) : Prop where
  environment : i'.environment = i.environment
  context : i'.context = i.context
  size : i.store.size ≤ i'.store.size
  scope : ∀ id < i.store.size, id ≠ i.environment.scope → i'.store.scope id = i.store.scope id
  names : ∀ x, ((i.store.scope i.environment.scope).get? x).isSome →
    ((i'.store.scope i.environment.scope).get? x).isSome

namespace Framed

theorem trans (h : Framed i j) (h' : Framed j i') : Framed i i' where
  environment := h'.environment.trans h.environment
  context := h'.context.trans h.context
  size := Nat.le_trans h.size h'.size
  scope id hid hne := by
    have hj : id ≠ j.environment.scope := by
      rw [h.environment]
      exact hne
    rw [h'.scope id (Nat.lt_of_lt_of_le hid h.size) hj, h.scope id hid hne]
  names x hx := by
    have hj := h'.names x
    rw [h.environment] at hj
    exact hj (h.names x hx)

/-- If the current scope exists, it goes on to. -/
theorem scope_lt (h : Framed i i') (hi : i.environment.scope < i.store.size) :
    i'.environment.scope < i'.store.size := by
  rw [h.environment]
  exact Nat.lt_of_lt_of_le hi h.size

theorem define (i : Interpreter) (x : String) (v : Value) :
    Framed i { i with store := i.store.define i.environment.scope x v } where
  environment := rfl
  context := rfl
  size := Nat.le_of_eq (Store.size_define _ _ _ _).symm
  scope id _ hne := Store.scope_define_of_ne _ _ _ hne
  names y hy := by
    change ((Store.scope (i.store.define _ x v) _).get? y).isSome
    rw [Store.scope_define]
    split
    · rw [Scope.get?_insert]
      split
      · rfl
      · exact hy
    · exact hy

/-- An interpreter in the same frame that has all the scopes there were. -/
theorem of_scopes {console : Console} {store : Store} (hs : i.store.size ≤ store.size)
    (hscope : ∀ id < i.store.size, store.scope id = i.store.scope id) :
    Framed i { i with store, console } where
  environment := rfl
  context := rfl
  size := hs
  scope id hid _ := hscope id hid
  names x hx := by
    by_cases hid : i.environment.scope < i.store.size
    · exact (hscope _ hid).symm ▸ hx
    · rw [Store.scope_of_size_le _ (Nat.le_of_not_lt hid)] at hx
      cases hx

end Framed

/-- Opening a scope adds one to the others. -/
theorem size_opened (i : Interpreter) (e : Environment) (ps : List String) (vs : List Value) :
    (i.opened e ps vs).store.size = i.store.size + 1 := by
  simp [opened]

/-- The scope that is opened becomes the current one. -/
theorem scope_lt_opened (i : Interpreter) (e : Environment) (ps : List String)
    (vs : List Value) : (i.opened e ps vs).environment.scope < (i.opened e ps vs).store.size := by
  rw [size_opened]
  exact Nat.lt_succ_self _

theorem scope_opened (i : Interpreter) (e : Environment) (ps : List String) (vs : List Value)
    {id : ScopeId} (hid : id < i.store.size) :
    (i.opened e ps vs).store.scope id = i.store.scope id := by
  have hne : id ≠ i.store.fresh := Nat.ne_of_lt hid
  change Store.scope (Store.defineAll _ _ ps vs) id = _
  rw [Store.scope_defineAll_of_ne _ _ _ hne, Store.scope_grow]

/-- A call leaves every scope alone that there was before. -/
theorem Framed.of_opened {e : Environment} {ps : List String} {vs : List Value} {c : Context}
    (h : Framed { i.opened e ps vs with context := c } j) :
    i.store.size < j.store.size ∧
      ∀ id < i.store.size, j.store.scope id = i.store.scope id := by
  have hs := size_opened i e ps vs
  have hj : (i.opened e ps vs).store.size ≤ j.store.size := h.size
  refine ⟨by omega, fun id hid => ?_⟩
  have hne : id ≠ i.store.fresh := Nat.ne_of_lt hid
  have hscope := h.scope id (by change id < (i.opened e ps vs).store.size; omega) hne
  exact hscope.trans (scope_opened i e ps vs hid)

/-- The history accounts for all that changes from `i` to `i'`: only the current scope and new ones
are written, and a call that has ended leaves its scope for good. -/
structure Orderly (i : Interpreter) (h : List Effect) (i' : Interpreter) : Prop where
  framed : Framed i i'
  within : ∀ a ∈ h, Effect.Within i i' a
  spares : i.environment.scope < i.store.size → h.Pairwise Effect.Spares
  scope_of_leave : i.environment.scope < i.store.size →
    ∀ s left, .leave s left ∈ h → i'.store.scope s = left

namespace Orderly

theorem to_console (i : Interpreter) (console : Console) : Orderly i [] { i with console } where
  framed := .of_scopes (Nat.le_refl _) fun _ _ => rfl
  within := by simp
  spares _ := .nil
  scope_of_leave := by simp

theorem refl (i : Interpreter) : Orderly i [] i := to_console i i.console

theorem define (i : Interpreter) (x : String) (v : Value) :
    Orderly i [.bind i.environment.scope x]
      { i with store := i.store.define i.environment.scope x v } where
  framed := .define i x v
  within a ha := by
    rw [List.mem_singleton.mp ha]
    exact .inl rfl
  spares _ := List.pairwise_singleton _ _
  scope_of_leave _ s left hs := by
    have he := List.mem_singleton.mp hs
    cases he

/-- What happens inside of a call, in the eyes of its caller. -/
theorem within_call {e : Environment} {ps : List String} {vs : List Value} {c : Context}
    {a : Effect} (ha : a.Within { i.opened e ps vs with context := c } j) :
    a.Within i { j with environment := i.environment, context := i.context } := by
  have hs := size_opened i e ps vs
  cases a with
  | bind id x =>
    -- The scope of the call is itself new to the caller.
    refine .inr ?_
    rcases ha with rfl | hid
    · exact Nat.le_refl _
    · change (i.opened e ps vs).store.size ≤ id at hid
      omega
  | enter id | leave id left =>
    obtain ⟨hid, hlt⟩ := ha
    change (i.opened e ps vs).store.size ≤ id at hid
    exact ⟨by omega, hlt⟩

theorem call {e : Environment} {ps : List String} {vs : List Value} {c : Context}
    (o : Orderly { i.opened e ps vs with context := c } h j) :
    Orderly i
      (.enter i.store.fresh :: (h ++ [.leave i.store.fresh (j.store.scope i.store.fresh)]))
      { j with environment := i.environment, context := i.context } where
  framed := .of_scopes (Nat.le_of_lt o.framed.of_opened.1) o.framed.of_opened.2
  within a ha := by
    have hlt : i.store.size < j.store.size := o.framed.of_opened.1
    have hnew : i.store.size ≤ i.store.fresh ∧ i.store.fresh < j.store.size := ⟨Nat.le_refl _, hlt⟩
    rcases List.mem_cons.mp ha with rfl | ha
    · exact hnew
    rcases List.mem_append.mp ha with ha | ha
    · exact within_call (o.within a ha)
    · rw [List.mem_singleton.mp ha]
      exact hnew
  spares _ := by
    have hh := o.spares (scope_lt_opened i e ps vs)
    refine List.pairwise_cons.mpr ⟨fun a _ s left x he => (by cases he), ?_⟩
    refine List.pairwise_append.mpr ⟨hh, List.pairwise_singleton _ _, ?_⟩
    intro a _ b hb s left x _ he
    rw [List.mem_singleton.mp hb] at he
    cases he
  scope_of_leave _ s left hs := by
    rcases List.mem_cons.mp hs with he | hs
    · cases he
    rcases List.mem_append.mp hs with hs | hs
    · exact o.scope_of_leave (scope_lt_opened i e ps vs) s left hs
    · cases List.mem_singleton.mp hs
      rfl

theorem trans {h' : List Effect} (o : Orderly i h j) (o' : Orderly j h' i') :
    Orderly i (h ++ h') i' where
  framed := o.framed.trans o'.framed
  within a ha := by
    have hij := o.framed.size
    have hji := o'.framed.size
    rcases List.mem_append.mp ha with ha | ha
    · have hin := o.within a ha
      cases a with
      | bind id x => exact hin
      | enter id | leave id left => exact ⟨hin.1, Nat.lt_of_lt_of_le hin.2 hji⟩
    · have hin := o'.within a ha
      cases a with
      | bind id x =>
        rcases hin with rfl | hid
        · exact .inl (congrArg Environment.scope o.framed.environment)
        · exact .inr (Nat.le_trans hij hid)
      | enter id | leave id left => exact ⟨Nat.le_trans hij hin.1, hin.2⟩
  spares hi := by
    have hj := o.framed.scope_lt hi
    refine List.pairwise_append.mpr ⟨o.spares hi, o'.spares hj, ?_⟩
    intro a ha b hb s left x hleave hbind
    subst hleave hbind
    -- The scope that is left is neither the current one nor new from then on.
    have hs := o.within _ ha
    rcases o'.within _ hb with he | hn
    · rw [o.framed.environment] at he
      exact absurd (he ▸ hs.1) (Nat.not_le_of_lt hi)
    · exact absurd hn (Nat.not_le_of_lt hs.2)
  scope_of_leave hi s left hs := by
    have hj := o.framed.scope_lt hi
    rcases List.mem_append.mp hs with hs | hs
    · obtain ⟨hnew, hlt⟩ := o.within _ hs
      have hne : s ≠ j.environment.scope := by
        rw [o.framed.environment]
        exact Nat.ne_of_gt (Nat.lt_of_lt_of_le hi hnew)
      rw [o'.framed.scope s hlt hne]
      exact o.scope_of_leave hi s left hs
    · exact o'.scope_of_leave hj s left hs

/-- The console has no part in it. -/
theorem of_console {console : Console} (o : Orderly { i with console } h i') : Orderly i h i' :=
  ⟨⟨o.framed.environment, o.framed.context, o.framed.size, o.framed.scope, o.framed.names⟩,
    o.within, o.spares, o.scope_of_leave⟩

end Orderly

theorem Performs.orderly (p : Performs m i h r i') : Orderly i h i' := by
  induction p with
  | readOnly => exact .refl _
  | define => exact .define _ _ _
  | call _ ih => exact .call ih
  | @builtin _ e ps vs c _ i _ console _ =>
    -- A built-in function is a call whose body binds nothing.
    have ho : Orderly { i.opened e ps vs with context := c } []
        { i.opened e ps vs with context := c, console } := .to_console _ console
    exact .call ho
  | bind _ _ ih ih' => exact ih.trans ih'
  | stop _ ih => exact ih

end Interpreter

end Minibasic

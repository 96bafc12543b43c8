import Mathlib.Data.List.Forall2
import Minibasic.Proofs.Evaluation.Parents
import Minibasic.Proofs.Expr.Marks

/-!
Two states that differ in no more than what a program cannot observe. Where a value arose is not
compared, and of the spans in the bodies of functions no more than what a view keeps of them. The
scopes of the one stand for scopes of the other.
-/

namespace Minibasic

/-- What is seen of a span, and which scopes of two sessions stand for each other. -/
structure View (μ : Type) where
  span : Span → μ
  scope : ScopeId → ScopeId → Prop
  /-- A scope stands for at most one other. -/
  paired : ∀ {a b c d : ScopeId}, scope a b → scope c d → (a = c ↔ b = d)

variable {μ : Type} (V : View μ)

/-- The scopes around one point stand for those around another, in the same order. -/
def Environment.Alike (e e' : Environment) : Prop := List.Forall₂ V.scope e.chain e'.chain

/-- Numbers and strings are equal. Functions have the same name, parameters and body, and were made
in environments that are alike. -/
inductive Datum.Alike : Datum → Datum → Prop
  | number (n : Number) : Alike (.number n) (.number n)
  | string (s : String) : Alike (.string s) (.string s)
  | builtin (b : Builtin) : Alike (.function (.builtin b)) (.function (.builtin b))
  | closure (x : Option String) (ps : List String) {body body' : Expr Span} {e e' : Environment} :
      body.map V.span = body'.map V.span → e.Alike V e' →
      Alike (.function (.closure x ps body e)) (.function (.closure x ps body' e'))

def Value.Alike (v v' : Value) : Prop := v.datum.Alike V v'.datum

/-- Scopes that stand for each other bind the same names to values that are alike. Scopes to come
stand for each other in the order in which they will be made. -/
structure Store.Alike (s s' : Store) : Prop where
  get? : ∀ {a b : ScopeId}, V.scope a b → ∀ x,
    Option.Rel (Value.Alike V) ((s.scope a).get? x) ((s'.scope b).get? x)
  fresh : ∀ k, V.scope (s.size + k) (s'.size + k)

/-- The consoles are the same, and the calls in progress are not compared. -/
structure Interpreter.Alike (i i' : Interpreter) : Prop where
  environment : i.environment.Alike V i'.environment
  store : i.store.Alike V i'.store
  console : i.console = i'.console

/-- The causes are the same, and so is what is seen of the text to blame. -/
structure Diagnostic.Alike (d d' : Diagnostic) : Prop where
  cause : d.cause = d'.cause
  span : V.span d.span = V.span d'.span

variable {V}

namespace Datum.Alike

variable {a a' b b' : Datum}

theorem isTrue (h : a.Alike V a') : a.isTrue = a'.isTrue := by
  cases h <;> rfl

theorem number? (h : a.Alike V a') : a.number? = a'.number? := by
  cases h <;> rfl

theorem text (h : a.Alike V a') : a.text = a'.text := by
  cases h <;> rfl

theorem echo (h : a.Alike V a') : a.echo = a'.echo := by
  cases h <;> rfl

/-- The operators see no more of a function than that it is one. -/
theorem binary (op : BinaryOp) (ha : a.Alike V a') (hb : b.Alike V b') :
    Datum.binary op a b = Datum.binary op a' b' := by
  cases op <;> cases ha <;> cases hb <;> rfl

theorem of_plain {d : Datum} (h : d.Plain) : d.Alike V d := by
  cases d with
  | number n => exact .number n
  | string s => exact .string s
  | function f => exact absurd rfl (h f)

end Datum.Alike

/-- Both fail for the same cause, or both give data that are alike. -/
inductive ResultsAlike (V : View μ) : Except Cause Datum → Except Cause Datum → Prop
  | ok {d d' : Datum} : d.Alike V d' → ResultsAlike V (.ok d) (.ok d')
  | error (c : Cause) : ResultsAlike V (.error c) (.error c)

namespace ResultsAlike

variable {a a' b b' : Datum}

/-- A result that is no function is alike to itself. -/
theorem of_plain {r : Except Cause Datum} (h : ∀ d, r = .ok d → d.Plain) :
    ResultsAlike V r r := by
  cases r with
  | ok d => exact .ok (.of_plain (h d rfl))
  | error c => exact .error c

theorem binary (op : BinaryOp) (ha : a.Alike V a') (hb : b.Alike V b') :
    ResultsAlike V (Datum.binary op a b) (Datum.binary op a' b') := by
  rw [ha.binary op hb]
  exact of_plain fun d hd => Datum.binary_plain hd

theorem unary (op : UnaryOp) (ha : a.Alike V a') :
    ResultsAlike V (Datum.unary op a) (Datum.unary op a') := by
  cases op with
  | plus => exact .ok ha
  | minus => exact binary .mul ha (.number _)
  | not =>
    cases ha with
    | number n => exact .ok (.number _)
    | string s => exact .ok (.number _)
    | builtin b => exact .error _
    | closure x ps hbody he => exact .error _

end ResultsAlike

theorem Store.Alike.lookup {s s' : Store} (hs : s.Alike V s') {e e' : Environment}
    (he : e.Alike V e') (x : String) :
    Option.Rel (Value.Alike V) (s.lookup e x) (s'.lookup e' x) := by
  unfold Environment.Alike at he
  unfold Store.lookup
  generalize e.chain = c at he ⊢
  generalize e'.chain = c' at he ⊢
  induction he with
  | nil => exact .none
  | @cons a b as bs hab _ ih =>
    rw [List.findSome?_cons, List.findSome?_cons]
    have hx := hs.get? hab x
    generalize (s.scope a).get? x = o at hx ⊢
    generalize (s'.scope b).get? x = o' at hx ⊢
    cases hx with
    | some hv => exact .some hv
    | none => exact ih

namespace Store.Alike

variable {s s' : Store} {a b : ScopeId}

/-- A scope exists if the other one does. -/
theorem size_le_iff (h : s.Alike V s') (hab : V.scope a b) : s.size ≤ a ↔ s'.size ≤ b := by
  constructor
  · intro ha
    have hk := h.fresh (a - s.size)
    rw [Nat.add_sub_cancel' ha] at hk
    rw [(V.paired hab hk).mp rfl]
    exact Nat.le_add_right _ _
  · intro hb
    have hk := h.fresh (b - s'.size)
    rw [Nat.add_sub_cancel' hb] at hk
    rw [(V.paired hab hk).mpr rfl]
    exact Nat.le_add_right _ _

theorem define (h : s.Alike V s') (hab : V.scope a b) (x : String) {v v' : Value}
    (hv : v.Alike V v') : (s.define a x v).Alike V (s'.define b x v') where
  get? := by
    intro c d hcd y
    -- By the pairing, one of the two writes reaches its scope exactly if the other does.
    have hc : c = a ∧ a < s.size ↔ d = b ∧ b < s'.size := by
      rw [V.paired hcd hab, ← Nat.not_le, ← Nat.not_le, h.size_le_iff hab]
    rw [scope_define, scope_define]
    by_cases hd : d = b ∧ b < s'.size
    · rw [if_pos (hc.mpr hd), if_pos hd, Scope.get?_insert, Scope.get?_insert]
      by_cases hy : y = x
      · rw [if_pos hy, if_pos hy]
        exact .some hv
      · rw [if_neg hy, if_neg hy]
        exact h.get? hab y
    · rw [if_neg (mt hc.mp hd), if_neg hd]
      exact h.get? hcd y
  fresh k := by
    rw [size_define, size_define]
    exact h.fresh k

theorem grow (h : s.Alike V s') : s.grow.Alike V s'.grow where
  get? hab x := by
    rw [scope_grow, scope_grow]
    exact h.get? hab x
  fresh k := by
    have hk := h.fresh (k + 1)
    rw [size_grow, size_grow, Nat.add_right_comm s.size, Nat.add_right_comm s'.size]
    exact hk

/-- The next scopes stand for each other. -/
theorem fresh_zero (h : s.Alike V s') : V.scope s.fresh s'.fresh := h.fresh 0

theorem defineAll (h : s.Alike V s') (hab : V.scope a b) (names : List String)
    {vs vs' : List Value} (hvs : List.Forall₂ (Value.Alike V) vs vs') :
    (s.defineAll a names vs).Alike V (s'.defineAll b names vs') := by
  induction hvs generalizing s s' names with
  | nil =>
    rw [Store.defineAll, Store.defineAll, List.zip_nil_right]
    exact h
  | cons hv _ ih =>
    cases names with
    | nil => exact h
    | cons x names => exact ih (h.define hab x hv) names

end Store.Alike

/-- What a built-in function makes of its argument does not depend on more than its text. -/
theorem Builtin.run_alike (b : Builtin) {look look' : String → Option Datum}
    (h : ∀ x, Option.Rel (Datum.Alike V) (look x) (look' x)) (c : Console) :
    b.run look c = b.run look' c := by
  have ha := h argumentName
  cases b with
  | print | printReturn =>
    simp only [run, argument]
    generalize look argumentName = o at ha ⊢
    generalize look' argumentName = o' at ha ⊢
    cases ha with
    | some hd => simp only [hd.text, Except.map]
    | none => rfl
  | input | inputInt => rfl

namespace Interpreter.Alike

variable {i i' : Interpreter}

theorem define (h : i.Alike V i') (x : String) {v v' : Value} (hv : v.Alike V v') :
    Alike V { i with store := i.store.define i.environment.scope x v }
      { i' with store := i'.store.define i'.environment.scope x v' } where
  environment := h.environment
  store := by
    have hs : V.scope i.environment.scope i'.environment.scope := by
      have he := h.environment
      unfold Environment.Alike Environment.chain at he
      exact (List.forall₂_cons.mp he).1
    exact h.store.define hs x hv
  console := h.console

theorem opened (h : i.Alike V i') {e e' : Environment} (he : e.Alike V e') (ps : List String)
    {vs vs' : List Value} (hvs : List.Forall₂ (Value.Alike V) vs vs') :
    (i.opened e ps vs).Alike V (i'.opened e' ps vs') where
  environment := .cons h.store.fresh_zero he
  store := h.store.grow.defineAll h.store.fresh_zero ps hvs
  console := h.console

end Interpreter.Alike

end Minibasic

import Minibasic.Proofs.Expr.Children
import Minibasic.Proofs.Parser.Soundness

/-!
The literals and the names in a tree. They are those of the lexemes that the tree is derived from.
-/

namespace Minibasic

section Payload

variable {α : Type} {P : Lexeme → Prop} {e l r : Expr α}

/-- The lexemes of the literal that a node is, or of the names that it bears. -/
def Expr.payload : Expr α → List Lexeme
  | .number _ (.int n) => [.int n]
  | .number _ (.float x) => [.float x]
  | .string _ s => [.string s]
  | .var _ x | .assign _ x _ | .count _ x _ _ _ _ => [.identifier x]
  | .function _ x ps _ => (x.toList ++ ps).map .identifier
  | .binary _ _ _ _ | .unary _ _ _ | .choose _ _ _ _ | .loop _ _ _ | .call _ _ _ => []

/-- All literals and names in the expression satisfy `P`. -/
def Expr.Bears (P : Lexeme → Prop) (e : Expr α) : Prop := ∀ n ∈ e.nodes, ∀ l ∈ n.payload, P l

theorem Expr.bears_iff :
    e.Bears P ↔ (∀ l ∈ e.payload, P l) ∧ ∀ c ∈ e.children, c.Bears P := by
  rw [Bears, nodes_eq, List.forall_mem_cons]
  simp only [List.mem_flatMap, Bears]
  exact and_congr_right fun _ =>
    ⟨fun h c hc n hn => h n ⟨c, hc, hn⟩, fun h n ⟨c, hc, hn⟩ => h c hc n hn⟩

theorem Expr.bears_binary (m : α) (op : BinaryOp) :
    (binary m op l r).Bears P ↔ l.Bears P ∧ r.Bears P := by
  simp [bears_iff (e := binary m op l r), payload, children]

theorem Arms.children_map {β : Type} (f : α → β) (as : Arms α) :
    (as.map f).children = as.children.map (Expr.map f) := by
  cases as with
  | done => rfl
  | otherwise b => rfl
  | elif c b as => simp only [map, children, as.children_map f, List.map_cons]

theorem Expr.children_map {β : Type} (f : α → β) (e : Expr α) :
    (e.map f).children = e.children.map (map f) := by
  cases e with
  | choose m c b as => simp [map, children, Arms.children_map]
  | count m x a b s e => cases s <;> simp [map, children, mapStep_eq_map]
  | call m c as => simp [map, children, mapAll_eq_map]
  | _ => simp [map, children]

theorem Expr.bears_map {β : Type} (f : α → β) (e : Expr α) : (e.map f).Bears P ↔ e.Bears P := by
  induction e using induction_on_children with
  | h e ih =>
    have hpayload : (e.map f).payload = e.payload := by
      cases e with
      | number m n => cases n <;> rfl
      | _ => rfl
    rw [bears_iff, bears_iff (e := e), hpayload, children_map, List.forall_mem_map]
    exact and_congr_right fun _ => forall₂_congr ih

end Payload

namespace Grammar

variable {P : Lexeme → Prop}

/-- The trees that a phrase is made of. -/
def Phrase.trees : Phrase → List Tree
  | expression e | comparison e | arithmetic e | term e | factor e | power e | call e | atom e =>
    [e]
  | operations _ ops => ops.map Prod.snd
  | exponents es | arguments es | moreArguments es => es
  | guarded c b => [c, b]
  | arms as => as.children
  | step s => s.toList

theorem bears_folded {l : Tree} {ops : List (BinaryOp × Tree)} (hl : l.Bears P)
    (hops : ∀ e ∈ ops.map Prod.snd, e.Bears P) : (folded l ops).Bears P := by
  induction ops generalizing l with
  | nil => exact hl
  | cons o ops ih =>
    rw [List.map_cons, List.forall_mem_cons] at hops
    exact ih ((Expr.bears_binary () o.1).mpr ⟨hl, hops.1⟩) hops.2

theorem bears_raised {b : Tree} {es : List Tree} (hb : b.Bears P) (hes : ∀ e ∈ es, e.Bears P) :
    (raised b es).Bears P := by
  induction es generalizing b with
  | nil => exact hb
  | cons e es ih =>
    rw [List.forall_mem_cons] at hes
    exact ih ((Expr.bears_binary () .pow).mpr ⟨hb, hes.1⟩) hes.2

theorem identifier_mem_parameterLexemes {p : String} {ps : List String} (h : p ∈ ps) :
    .identifier p ∈ parameterLexemes ps := by
  cases ps with
  | nil => cases h
  | cons q ps =>
    rw [Parser.parameterLexemes_cons]
    rcases List.mem_cons.mp h with rfl | h
    · simp
    · exact List.mem_cons_of_mem _ (List.mem_flatMap.mpr ⟨p, h, by simp⟩)

/-- A tree has no literals and no names but those of the lexemes it is derived from. -/
theorem Derives.bears {p : Phrase} {w : List Lexeme} (h : Derives p w) (hw : ∀ l ∈ w, P l) :
    ∀ e ∈ p.trees, e.Bears P := by
  induction h with
  | logical _ _ ihl ihops | sum _ _ ihl ihops | product _ _ ihl ihops =>
    rw [List.forall_mem_append] at hw
    exact List.forall_mem_singleton.mpr
      (bears_folded (ihl hw.1 _ List.mem_cons_self) (ihops hw.2))
  | raise _ _ ihb ihes =>
    rw [List.forall_mem_append] at hw
    exact List.forall_mem_singleton.mpr (bears_raised (ihb hw.1 _ List.mem_cons_self) (ihes hw.2))
  | @function x ps b w _ ih =>
    have hps : ∀ p ∈ ps, P (.identifier p) := fun p hp =>
      hw _ (by simp [identifier_mem_parameterLexemes hp])
    refine List.forall_mem_singleton.mpr (Expr.bears_iff.mpr ?_)
    cases x <;> simp_all [Phrase.trees, Expr.payload, Expr.children]
  | @operation t _ r _ _ _ _ _ _ ihr ihops =>
    -- which phrase the operand is hangs on the tier
    have hr : r ∈ (operand t r).trees := by cases t <;> exact List.mem_cons_self
    simp only [List.forall_mem_cons, List.forall_mem_append] at hw
    exact List.forall_mem_cons.mpr ⟨ihr hw.2.1 r hr, ihops hw.2.2⟩
  | noArm | otherwise | elif | noOperation | noExponent | exponent | noArgument | argument | noMore
  | more | guarded | noStep | step | arithmetic | power | callee | group =>
    simp_all [Phrase.trees, Arms.children]
  | _ =>
    refine List.forall_mem_singleton.mpr (Expr.bears_iff.mpr ?_)
    simp_all [Phrase.trees, Expr.payload, Expr.children, or_imp, forall_and]

end Grammar

end Minibasic

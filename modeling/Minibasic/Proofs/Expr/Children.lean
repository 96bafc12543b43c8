import Minibasic.Expr

/-!
The expressions directly inside of an expression, in the order in which they are written. What an
expression has whenever these have it, every expression has.
-/

namespace Minibasic

variable {α : Type}

/-- The conditions of the arms and what they lead to. -/
def Arms.children : Arms α → List (Expr α)
  | .done => []
  | .otherwise b => [b]
  | .elif c b as => c :: b :: as.children

theorem Arms.nodes_eq (as : Arms α) : as.nodes = as.children.flatMap Expr.nodes := by
  cases as with
  | done => rfl
  | otherwise b => rw [nodes, children, List.flatMap_singleton]
  | elif c b as =>
    rw [nodes, children, List.flatMap_cons, List.flatMap_cons, as.nodes_eq, List.append_assoc]

namespace Expr

def children : Expr α → List (Expr α)
  | number _ _ | string _ _ | .var _ _ => []
  | assign _ _ e | unary _ _ e | function _ _ _ e => [e]
  | binary _ _ l r => [l, r]
  | choose _ c b as => c :: b :: as.children
  | count _ _ a b s e => a :: b :: (s.toList ++ [e])
  | .loop _ c b => [c, b]
  | call _ c as => c :: as

theorem stepNodes_eq (s : Option (Expr α)) : stepNodes s = s.toList.flatMap nodes := by
  cases s with
  | none => rfl
  | some e => exact (List.flatMap_singleton nodes e).symm

theorem allNodes_eq (es : List (Expr α)) : allNodes es = es.flatMap nodes := by
  induction es with
  | nil => rfl
  | cons e es ih => rw [allNodes, List.flatMap_cons, ih]

/-- An expression and what is inside of its children make up all that is inside of it. -/
theorem nodes_eq (e : Expr α) : e.nodes = e :: e.children.flatMap nodes := by
  cases e with
  | choose m c b as => simp [nodes, children, Arms.nodes_eq]
  | count m x a b s e => simp [nodes, children, stepNodes_eq]
  | call m c as => simp [nodes, children, allNodes_eq]
  | _ => simp [nodes, children]

theorem mem_nodes_self (e : Expr α) : e ∈ e.nodes := by
  rw [nodes_eq]
  exact List.mem_cons_self

theorem nodes_subset_of_child {c e : Expr α} (h : c ∈ e.children) : c.nodes ⊆ e.nodes := by
  intro n hn
  rw [e.nodes_eq]
  exact List.mem_cons_of_mem e (List.mem_flatMap.mpr ⟨c, h, hn⟩)

theorem length_nodes_lt_of_child {c e : Expr α} (h : c ∈ e.children) :
    c.nodes.length < e.nodes.length := by
  have hc : c.nodes.Sublist (e.children.flatMap nodes) := by
    obtain ⟨before, behind, he⟩ := List.append_of_mem h
    rw [he, List.flatMap_append, List.flatMap_cons]
    exact (List.sublist_append_left _ _).trans (List.sublist_append_right _ _)
  rw [e.nodes_eq, List.length_cons]
  exact Nat.lt_succ_of_le hc.length_le

/-- Induction from the children of an expression to itself. -/
theorem induction_on_children {P : Expr α → Prop} (h : ∀ e, (∀ c ∈ e.children, P c) → P e)
    (e : Expr α) : P e :=
  h e fun c _ => induction_on_children h c
termination_by e.nodes.length
decreasing_by exact length_nodes_lt_of_child ‹_›

/-- What is inside of a node is inside of the expression. -/
theorem nodes_subset_of_mem {c e : Expr α} (h : c ∈ e.nodes) : c.nodes ⊆ e.nodes := by
  induction e using induction_on_children with
  | h e ih =>
    rw [nodes_eq] at h
    rcases List.mem_cons.mp h with rfl | h
    · exact List.Subset.refl _
    · obtain ⟨d, hd, hc⟩ := List.mem_flatMap.mp h
      exact List.Subset.trans (ih d hd hc) (nodes_subset_of_child hd)

end Expr

end Minibasic

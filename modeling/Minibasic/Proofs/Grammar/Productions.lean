import Mathlib.Order.CompletePartialOrder
import Minibasic.Proofs.Grammar.Continuation

/-!
The productions of the grammar as inclusions between languages, and the beginnings of words. Every
phrase derives something, so that the beginning of one part of a production is a beginning of the
whole.
-/

namespace Minibasic.Grammar

open Minibasic.Parser (Tier)

variable {K L M : Language Lexeme} {u w : List Lexeme}

/-- What can be completed to a word of the language. -/
def beginnings (L : Language Lexeme) : Language Lexeme := {w | ∃ z, w ++ z ∈ L}

/-- The language has a word. -/
def Inhabited (L : Language Lexeme) : Prop := ∃ w, w ∈ L

section Beginnings

theorem Inhabited.nil_mem_beginnings (h : Inhabited L) : [] ∈ beginnings L := h

theorem beginnings_mono (h : L ≤ M) : beginnings L ≤ beginnings M := by
  intro w hw
  obtain ⟨z, hz⟩ := hw
  exact ⟨z, h hz⟩

theorem mem_beginnings_mul (hM : Inhabited M) (h : w ∈ beginnings L) :
    w ∈ beginnings (L * M) := by
  obtain ⟨z, hz⟩ := h
  obtain ⟨v, hv⟩ := hM
  exact ⟨z ++ v, w ++ z, hz, v, hv, List.append_assoc w z v⟩

theorem append_mem_beginnings_mul (hu : u ∈ L) (h : w ∈ beginnings M) :
    u ++ w ∈ beginnings (L * M) := by
  obtain ⟨z, hz⟩ := h
  exact ⟨z, u, hu, w ++ z, hz, (List.append_assoc u w z).symm⟩

end Beginnings

/-- One identifier, whichever it is. -/
def identifiers : Language Lexeme := {w | ∃ x, w = [.identifier x]}

/-- The name of a function, or nothing. -/
def optionalNames : Language Lexeme :=
  {w | ∃ x : Option String, w = x.toList.map Lexeme.identifier}

/-- Identifiers with a comma before each. -/
def moreNames : Language Lexeme :=
  {w | ∃ ps : List String, w = ps.flatMap fun p => [.comma, .identifier p]}

/-- Parameters and the parenthesis that closes them. -/
def parameterLists : Language Lexeme := {w | ∃ ps, w = parameterLexemes ps ++ [.closeParen]}

section Inhabited

@[simp] theorem inhabited_one : Inhabited 1 := ⟨[], rfl⟩

@[simp] theorem inhabited_only (l : Lexeme) : Inhabited (only l) := ⟨[l], rfl⟩

@[simp] theorem inhabited_identifiers : Inhabited identifiers := ⟨_, "x", rfl⟩

@[simp] theorem inhabited_optionalNames : Inhabited optionalNames := ⟨_, none, rfl⟩

@[simp] theorem inhabited_moreNames : Inhabited moreNames := ⟨_, [], rfl⟩

@[simp] theorem inhabited_parameterLists : Inhabited parameterLists := ⟨_, [], rfl⟩

@[simp] theorem inhabited_mul : Inhabited (L * M) ↔ Inhabited L ∧ Inhabited M := by
  constructor
  · intro h
    obtain ⟨_, u, hu, v, hv, -⟩ := h
    exact ⟨⟨u, hu⟩, v, hv⟩
  · intro h
    obtain ⟨⟨u, hu⟩, v, hv⟩ := h
    exact ⟨u ++ v, Language.append_mem_mul hu hv⟩

/-- A name alone is a phrase of every level. -/
theorem derives_name (x : String) :
    Derives (.call (.var () x)) [.identifier x] ∧ Derives (.factor (.var () x)) [.identifier x] ∧
      Derives (.term (.var () x)) [.identifier x] ∧
      Derives (.arithmetic (.var () x)) [.identifier x] ∧
      Derives (.comparison (.var () x)) [.identifier x] ∧
      Derives (.expression (.var () x)) [.identifier x] := by
  have hc : Derives (.call (.var () x)) [.identifier x] := .callee .identifier
  have hf : Derives (.factor (.var () x)) [.identifier x] := .power (.raise hc .noExponent)
  have ht : Derives (.term (.var () x)) [.identifier x] := .product hf .noOperation
  have ha : Derives (.arithmetic (.var () x)) [.identifier x] := .sum ht .noOperation
  exact ⟨hc, hf, ht, ha, .arithmetic ha, .logical (.arithmetic ha) .noOperation⟩

@[simp] theorem inhabited_expression : Inhabited (sentences .expression) :=
  ⟨_, _, (derives_name "x").2.2.2.2.2⟩

@[simp] theorem inhabited_operand (t : Tier) : Inhabited (sentences (operand t)) := by
  cases t with
  | logical => exact ⟨_, _, (derives_name "x").2.2.2.2.1⟩
  | additive => exact ⟨_, _, (derives_name "x").2.2.1⟩
  | multiplicative => exact ⟨_, _, (derives_name "x").2.1⟩

@[simp] theorem inhabited_comparison : Inhabited (sentences .comparison) :=
  inhabited_operand .logical

@[simp] theorem inhabited_factor : Inhabited (sentences .factor) :=
  inhabited_operand .multiplicative

@[simp] theorem inhabited_arithmetic : Inhabited (sentences .arithmetic) :=
  ⟨_, _, (derives_name "x").2.2.2.1⟩

@[simp] theorem inhabited_atom : Inhabited (sentences .atom) := ⟨_, .var () "x", .identifier⟩

@[simp] theorem inhabited_operations (t : Tier) : Inhabited (sentences (.operations t)) :=
  ⟨_, nil_mem_operations t⟩

@[simp] theorem inhabited_comparisonSuffixes : Inhabited comparisonSuffixes :=
  ⟨_, nil_mem_comparisonSuffixes⟩

@[simp] theorem inhabited_exponents : Inhabited (sentences .exponents) := ⟨_, nil_mem_exponents⟩

@[simp] theorem inhabited_callSuffixes : Inhabited callSuffixes := ⟨_, nil_mem_callSuffixes⟩

@[simp] theorem inhabited_arguments : Inhabited (sentences .arguments) := ⟨_, [], .noArgument⟩

@[simp] theorem inhabited_moreArguments : Inhabited (sentences .moreArguments) :=
  ⟨_, [], .noMore⟩

@[simp] theorem inhabited_arms : Inhabited (sentences .arms) := ⟨_, nil_mem_arms⟩

@[simp] theorem inhabited_step : Inhabited (sentences .step) := ⟨_, none, .noStep⟩

end Inhabited

section Inclusions

theorem only_mul_le (l : Lexeme) (h : ∀ w ∈ L, l :: w ∈ K) : only l * L ≤ K := by
  intro w hw
  obtain ⟨v, hv, rfl⟩ := exists_of_mem_only_mul hw
  exact h v hv

theorem mul_le_of_append (h : ∀ u ∈ L, ∀ v ∈ M, u ++ v ∈ K) : L * M ≤ K := by
  intro w hw
  obtain ⟨u, hu, v, hv, rfl⟩ := hw
  exact h u hu v hv

theorem assign_le : only (.keyword .var) * (identifiers * (only .equal * sentences .expression)) ≤
    sentences .expression := by
  refine only_mul_le _ fun w hw => ?_
  obtain ⟨_, ⟨x, rfl⟩, v, hv, rfl⟩ := hw
  obtain ⟨z, ⟨e, de⟩, rfl⟩ := exists_of_mem_only_mul hv
  exact ⟨_, .assign de⟩

theorem logical_le :
    sentences (operand .logical) * sentences (.operations .logical) ≤ sentences .expression := by
  refine mul_le_of_append fun u hu v hv => ?_
  obtain ⟨l, du⟩ := hu
  obtain ⟨ops, dv⟩ := hv
  exact ⟨_, .logical du dv⟩

theorem sum_le :
    sentences (operand .additive) * sentences (.operations .additive) ≤ sentences .arithmetic := by
  refine mul_le_of_append fun u hu v hv => ?_
  obtain ⟨l, du⟩ := hu
  obtain ⟨ops, dv⟩ := hv
  exact ⟨_, .sum du dv⟩

theorem product_le : sentences (operand .multiplicative) * sentences (.operations .multiplicative) ≤
    sentences .term := by
  refine mul_le_of_append fun u hu v hv => ?_
  obtain ⟨l, du⟩ := hu
  obtain ⟨ops, dv⟩ := hv
  exact ⟨_, .product du dv⟩

theorem operation_le {t : Tier} {op : BinaryOp} (hop : op ∈ operators t) :
    only op.lexeme * (sentences (operand t) * sentences (.operations t)) ≤
      sentences (.operations t) := by
  refine only_mul_le _ fun w hw => ?_
  obtain ⟨u, ⟨r, du⟩, v, ⟨ops, dv⟩, rfl⟩ := hw
  exact ⟨_, .operation hop du dv⟩

theorem not_le : only (.keyword .not) * sentences .comparison ≤ sentences .comparison := by
  refine only_mul_le _ fun w hw => ?_
  obtain ⟨e, de⟩ := hw
  exact ⟨_, .not de⟩

theorem relation_le : sentences .arithmetic * comparisonSuffixes ≤ sentences .comparison := by
  refine mul_le_of_append fun u hu v hv => ?_
  obtain ⟨l, du⟩ := hu
  rcases hv with rfl | ⟨op, hop, z, ⟨r, dz⟩, rfl⟩
  · exact ⟨l, u.append_nil.symm ▸ .arithmetic du⟩
  · exact ⟨_, .relation du hop dz⟩

theorem comparisonSuffix_le {op : BinaryOp} (hop : op ∈ comparisons) :
    only op.lexeme * sentences .arithmetic ≤ comparisonSuffixes :=
  only_mul_le _ fun w hw => .inr ⟨op, hop, w, hw, rfl⟩

theorem sign_le {op : UnaryOp} (hop : op ∈ signs) :
    only op.lexeme * sentences .factor ≤ sentences .factor := by
  refine only_mul_le _ fun w hw => ?_
  obtain ⟨e, de⟩ := hw
  exact ⟨_, .sign hop de⟩

theorem power_le : sentences .power ≤ sentences .factor := by
  intro w hw
  obtain ⟨e, de⟩ := hw
  exact ⟨e, .power de⟩

theorem raise_le : sentences .call * sentences .exponents ≤ sentences .power := by
  refine mul_le_of_append fun u hu v hv => ?_
  obtain ⟨b, du⟩ := hu
  obtain ⟨es, dv⟩ := hv
  exact ⟨_, .raise du dv⟩

theorem exponent_le :
    only .caret * (sentences .factor * sentences .exponents) ≤ sentences .exponents := by
  refine only_mul_le _ fun w hw => ?_
  obtain ⟨u, ⟨e, du⟩, v, ⟨es, dv⟩, rfl⟩ := hw
  exact ⟨_, .exponent du dv⟩

theorem call_le : sentences .atom * callSuffixes ≤ sentences .call := by
  refine mul_le_of_append fun u hu v hv => ?_
  obtain ⟨c, du⟩ := hu
  rcases hv with rfl | ⟨_, ⟨w, ⟨as, dw⟩, _, rfl, rfl⟩, rfl⟩
  · exact ⟨c, u.append_nil.symm ▸ .callee du⟩
  · exact ⟨_, .call du dw⟩

theorem callSuffix_le :
    only .openParen * (sentences .arguments * only .closeParen) ≤ callSuffixes :=
  only_mul_le _ fun w hw => .inr ⟨w, hw, rfl⟩

theorem argument_le :
    sentences .expression * sentences .moreArguments ≤ sentences .arguments := by
  refine mul_le_of_append fun u hu v hv => ?_
  obtain ⟨e, du⟩ := hu
  obtain ⟨es, dv⟩ := hv
  exact ⟨_, .argument du dv⟩

theorem more_le : only .comma * (sentences .expression * sentences .moreArguments) ≤
    sentences .moreArguments := by
  refine only_mul_le _ fun w hw => ?_
  obtain ⟨u, ⟨e, du⟩, v, ⟨es, dv⟩, rfl⟩ := hw
  exact ⟨_, .more du dv⟩

theorem group_le :
    only .openParen * (sentences .expression * only .closeParen) ≤ sentences .atom := by
  refine only_mul_le _ fun w hw => ?_
  obtain ⟨u, ⟨e, du⟩, _, rfl, rfl⟩ := hw
  exact ⟨e, .group du⟩

theorem guarded_le :
    sentences .expression * (only (.keyword .then_) * sentences .expression) ≤ guardeds := by
  refine mul_le_of_append fun u hu v hv => ?_
  obtain ⟨c, du⟩ := hu
  obtain ⟨w, ⟨b, dw⟩, rfl⟩ := exists_of_mem_only_mul hv
  exact ⟨(c, b), .guarded du dw⟩

@[simp] theorem inhabited_guardeds : Inhabited guardeds := by
  have h : Inhabited (sentences .expression *
      (only (.keyword .then_) * sentences .expression)) := by
    simp
  obtain ⟨w, hw⟩ := h
  exact ⟨w, guarded_le hw⟩

theorem choice_le : only (.keyword .if_) * (guardeds * sentences .arms) ≤ sentences .atom := by
  refine only_mul_le _ fun w hw => ?_
  obtain ⟨u, ⟨c, du⟩, v, ⟨as, dv⟩, rfl⟩ := hw
  exact ⟨_, .choice du dv⟩

theorem elif_le : only (.keyword .elif) * (guardeds * sentences .arms) ≤ sentences .arms := by
  refine only_mul_le _ fun w hw => ?_
  obtain ⟨u, ⟨c, du⟩, v, ⟨as, dv⟩, rfl⟩ := hw
  exact ⟨_, .elif du dv⟩

theorem otherwise_le : only (.keyword .else_) * sentences .expression ≤ sentences .arms := by
  refine only_mul_le _ fun w hw => ?_
  obtain ⟨e, de⟩ := hw
  exact ⟨_, .otherwise de⟩

theorem count_le : only (.keyword .for_) * (identifiers * (only .equal * (sentences .expression *
    (only (.keyword .to_) * (sentences .expression * (sentences .step *
      (only (.keyword .then_) * sentences .expression))))))) ≤ sentences .atom := by
  refine only_mul_le _ fun w hw => ?_
  obtain ⟨_, ⟨x, rfl⟩, w₁, h₁, rfl⟩ := hw
  obtain ⟨w₂, ⟨u, ⟨a, du⟩, w₃, h₃, rfl⟩, rfl⟩ := exists_of_mem_only_mul h₁
  obtain ⟨w₄, ⟨v, ⟨b, dv⟩, w₅, ⟨s, ⟨by_, ds⟩, w₆, h₆, rfl⟩, rfl⟩, rfl⟩ :=
    exists_of_mem_only_mul h₃
  obtain ⟨z, ⟨e, dz⟩, rfl⟩ := exists_of_mem_only_mul h₆
  exact ⟨_, .count du dv ds dz⟩

theorem step_le : only (.keyword .step) * sentences .expression ≤ sentences .step := by
  refine only_mul_le _ fun w hw => ?_
  obtain ⟨e, de⟩ := hw
  exact ⟨_, .step de⟩

theorem loop_le : only (.keyword .while_) * guardeds ≤ sentences .atom := by
  refine only_mul_le _ fun w hw => ?_
  obtain ⟨c, dw⟩ := hw
  exact ⟨_, .loop dw⟩

theorem function_le : only (.keyword .fun_) * (optionalNames * (only .openParen *
    (parameterLists * (only .arrow * sentences .expression)))) ≤ sentences .atom := by
  refine only_mul_le _ fun w hw => ?_
  obtain ⟨_, ⟨x, rfl⟩, w₁, h₁, rfl⟩ := hw
  obtain ⟨w₂, ⟨_, ⟨ps, rfl⟩, w₃, h₃, rfl⟩, rfl⟩ := exists_of_mem_only_mul h₁
  obtain ⟨z, ⟨b, db⟩, rfl⟩ := exists_of_mem_only_mul h₃
  have h : Derives (.atom (.function () x ps b)) _ := .function db
  exact ⟨_, by simpa using h⟩

theorem name_mul_le (x : String) : only (.identifier x) * K ≤ optionalNames * K :=
  only_mul_le _ fun w hw => ⟨[.identifier x], ⟨some x, rfl⟩, w, hw, rfl⟩

theorem le_optionalNames_mul : K ≤ optionalNames * K :=
  fun w hw => ⟨[], ⟨none, rfl⟩, w, hw, rfl⟩

theorem noName_le : only .closeParen ≤ parameterLists := by
  intro w hw
  obtain rfl : w = [.closeParen] := hw
  exact ⟨[], rfl⟩

end Inclusions

end Minibasic.Grammar

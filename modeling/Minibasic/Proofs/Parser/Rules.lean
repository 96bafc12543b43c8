import Minibasic.Expr.Parser

/-!
What the rules of the parser are made of. All of them come from a few steps put together in the same
few ways, so that what these keep holds of every rule, and of a rule with more fuel.
-/

namespace Minibasic.Parser

/-- The rule `r'` is built as `r` is, and goes on where `r` has no fuel left. -/
inductive Built : {α : Type} → Rule α → Rule α → Prop
  | pure {α : Type} (a : α) : Built (pure a) (pure a)
  | fail {α : Type} (e : Expectation) : Built (Rule.fail (α := α) e) (Rule.fail e)
  | exhausted {α : Type} (r : Rule α) : Built Rule.exhausted r
  | bind {α β : Type} {r r' : Rule α} {next next' : α → Rule β} : Built r r' →
      (∀ a, Built (next a) (next' a)) → Built (r >>= next) (r' >>= next')
  | peek : Built peek peek
  | advance : Built advance advance
  | orElse {α : Type} {r r' : Rule α} (e : Expectation) : Built r r' →
      Built (r.orElse e) (r'.orElse e)
  | moreParameters : Built moreParameters moreParameters

theorem Built.expect (l : Lexeme) (e : Expectation) : Built (expect l e) (expect l e) := by
  refine .bind .peek fun l' => ?_
  by_cases h : l' = l
  · rw [if_pos h]
    exact .advance
  · rw [if_neg h]
    exact .fail e

theorem Built.identifier (e : Expectation) : Built (identifier e) (identifier e) := by
  refine .bind .peek fun l => ?_
  split
  · exact .bind .advance fun _ => .pure _
  · exact .fail e

theorem Built.parameters : Built parameters parameters := by
  refine .bind .peek fun l => ?_
  split
  · refine .bind .advance fun _ => .bind .moreParameters fun _ => ?_
    exact .bind (.expect _ _) fun _ => .pure _
  · exact .bind (.expect _ _) fun _ => .pure _

/-- The rules of the parser, the parts of them that may find nothing, and the single steps that all
of them are made of, by their fuel. The number is that of the tokens that a success takes at
least. -/
inductive IsRule : {α : Type} → Nat → (Nat → Rule α) → Prop
  | program : IsRule 1 program
  | expression : IsRule 1 expression
  | binary (t : Tier) : IsRule 1 fun fuel => binary fuel t
  | operand (t : Tier) : IsRule 1 fun fuel => operand fuel t
  | chain (t : Tier) (left : Node) : IsRule 0 fun fuel => chain fuel t left
  | comparison : IsRule 1 comparison
  | relation : IsRule 1 relation
  | factor : IsRule 1 factor
  | power : IsRule 1 power
  | exponents (base : Node) : IsRule 0 fun fuel => exponents fuel base
  | call : IsRule 1 call
  | arguments : IsRule 0 arguments
  | moreArguments : IsRule 0 moreArguments
  | atom : IsRule 1 atom
  | guarded : IsRule 1 guarded
  | choice : IsRule 1 choice
  | arms : IsRule 0 arms
  | count : IsRule 1 count
  | step : IsRule 0 step
  | loop : IsRule 1 loop
  | function : IsRule 1 function
  | signature : IsRule 1 signature
  | parameters : IsRule 1 fun _ => parameters
  | moreParameters : IsRule 0 fun _ => moreParameters
  | identifier (e : Expectation) : IsRule 1 fun _ => identifier e
  | expect {l : Lexeme} (e : Expectation) : l ≠ .eof → IsRule 1 fun _ => expect l e
  | peek : IsRule 0 fun _ => peek
  | advance : IsRule 0 fun _ => advance

section

variable {fuel more : Nat}
  (h : ∀ {α : Type} {n : Nat} {r : Nat → Rule α}, IsRule n r → Built (r fuel) (r more))
include h

theorem built_expression : Built (expression (fuel + 1)) (expression (more + 1)) := by
  refine .bind .peek fun l => ?_
  split
  · refine .bind .advance fun _ => .bind (.identifier _) fun _ => ?_
    exact .bind (.expect _ _) fun _ => .bind (h .expression) fun _ => .pure _
  · exact .orElse _ (h (.binary .logical))

theorem built_binary (t : Tier) : Built (binary (fuel + 1) t) (binary (more + 1) t) :=
  .bind (h (.operand t)) fun left => h (.chain t left)

theorem built_operand (t : Tier) : Built (operand (fuel + 1) t) (operand (more + 1) t) := by
  cases t with
  | logical => exact h .comparison
  | additive => exact h (.binary .multiplicative)
  | multiplicative => exact h .factor

theorem built_chain (t : Tier) (left : Node) :
    Built (chain (fuel + 1) t left) (chain (more + 1) t left) := by
  refine .bind .peek fun l => ?_
  cases t.op? l with
  | some op => exact .bind .advance fun _ => .bind (h (.operand t)) fun _ => h (.chain t _)
  | none => exact .pure left

theorem built_comparison : Built (comparison (fuel + 1)) (comparison (more + 1)) := by
  refine .bind .peek fun l => ?_
  split
  · exact .bind .advance fun _ => .bind (h .comparison) fun _ => .pure _
  · exact .orElse _ (h .relation)

theorem built_relation : Built (relation (fuel + 1)) (relation (more + 1)) := by
  refine .bind (h (.binary .additive)) fun left => .bind .peek fun l => ?_
  cases comparisonOp? l with
  | some op => exact .bind .advance fun _ => .bind (h (.binary .additive)) fun _ => .pure _
  | none => exact .pure left

theorem built_factor : Built (factor (fuel + 1)) (factor (more + 1)) := by
  refine .bind .peek fun l => ?_
  cases sign? l with
  | some op => exact .bind .advance fun _ => .bind (h .factor) fun _ => .pure _
  | none => exact h .power

theorem built_power : Built (power (fuel + 1)) (power (more + 1)) :=
  .bind (h .call) fun base => h (.exponents base)

theorem built_exponents (base : Node) :
    Built (exponents (fuel + 1) base) (exponents (more + 1) base) := by
  refine .bind .peek fun l => ?_
  split
  · exact .bind .advance fun _ => .bind (h .factor) fun _ => h (.exponents _)
  · exact .pure base

theorem built_call : Built (call (fuel + 1)) (call (more + 1)) := by
  refine .bind (h .atom) fun callee => .bind .peek fun l => ?_
  split
  · refine .bind .advance fun _ => .bind (h .arguments) fun _ => ?_
    exact .bind (.expect _ _) fun _ => .pure _
  · exact .pure callee

theorem built_arguments : Built (arguments (fuel + 1)) (arguments (more + 1)) := by
  refine .bind .peek fun l => ?_
  split
  · exact .pure []
  · exact .bind (.orElse _ (h .expression)) fun _ => .bind (h .moreArguments) fun _ => .pure _

theorem built_moreArguments :
    Built (moreArguments (fuel + 1)) (moreArguments (more + 1)) := by
  refine .bind .peek fun l => ?_
  split
  · refine .bind .advance fun _ => .bind (h .expression) fun _ => ?_
    exact .bind (h .moreArguments) fun _ => .pure _
  · exact .pure []

theorem built_atom : Built (atom (fuel + 1)) (atom (more + 1)) := by
  refine .bind .peek fun l => ?_
  split
  case h_1 =>
    refine .bind .advance fun _ => .bind (h .expression) fun _ => ?_
    exact .bind (.expect _ _) fun _ => .pure _
  case h_2 => exact h .choice
  case h_3 => exact h .count
  case h_4 => exact h .loop
  case h_5 => exact h .function
  case h_10 => exact .fail _
  all_goals exact .bind .advance fun _ => .pure _

theorem built_guarded : Built (guarded (fuel + 1)) (guarded (more + 1)) :=
  .bind (h .expression) fun _ => .bind (.expect _ _) fun _ => .bind (h .expression) fun _ => .pure _

theorem built_choice : Built (choice (fuel + 1)) (choice (more + 1)) :=
  .bind .advance fun _ => .bind (h .guarded) fun _ => .bind (h .arms) fun _ => .pure _

theorem built_arms : Built (arms (fuel + 1)) (arms (more + 1)) := by
  refine .bind .peek fun l => ?_
  split
  · exact .bind .advance fun _ => .bind (h .guarded) fun _ => .bind (h .arms) fun _ => .pure _
  · exact .bind .advance fun _ => .bind (h .expression) fun _ => .pure _
  · exact .pure _

theorem built_count : Built (count (fuel + 1)) (count (more + 1)) := by
  refine .bind .advance fun _ => .bind (.identifier _) fun _ => .bind (.expect _ _) fun _ => ?_
  refine .bind (h .expression) fun _ => .bind (.expect _ _) fun _ => ?_
  refine .bind (h .expression) fun _ => ?_
  exact .bind (h .step) fun _ => .bind (.expect _ _) fun _ => .bind (h .expression) fun _ => .pure _

theorem built_step : Built (step (fuel + 1)) (step (more + 1)) := by
  refine .bind .peek fun l => ?_
  split
  · exact .bind .advance fun _ => .bind (h .expression) fun _ => .pure _
  · exact .pure none

theorem built_loop : Built (loop (fuel + 1)) (loop (more + 1)) :=
  .bind .advance fun _ => .bind (h .guarded) fun _ => .pure _

theorem built_function : Built (function (fuel + 1)) (function (more + 1)) := by
  refine .bind .advance fun _ => .bind .peek fun l => ?_
  split
  · exact .bind .advance fun _ => .bind (.expect _ _) fun _ => .bind (h .signature) fun _ => .pure _
  · exact .bind (.expect _ _) fun _ => .bind (h .signature) fun _ => .pure _

theorem built_signature : Built (signature (fuel + 1)) (signature (more + 1)) :=
  .bind .parameters fun _ => .bind (.expect _ _) fun _ =>
    .bind (h .expression) fun _ => .pure _

end

theorem built_program {fuel more : Nat} (h : Built (expression fuel) (expression more)) :
    Built (program fuel) (program more) := by
  refine .bind h fun e => .bind .peek fun l => ?_
  split
  · exact .pure e
  · exact .fail _

/-- Every rule is built as the same rule with more fuel. -/
theorem IsRule.built {α : Type} {fuel more n : Nat} {r : Nat → Rule α} (hr : IsRule n r)
    (hle : fuel ≤ more) : Built (r fuel) (r more) := by
  induction fuel generalizing more α n with
  | zero =>
    cases hr with
    | program => exact built_program (.exhausted _)
    | parameters => exact .parameters
    | moreParameters => exact .moreParameters
    | identifier e => exact .identifier e
    | expect e _ => exact .expect _ e
    | peek => exact .peek
    | advance => exact .advance
    | _ => exact .exhausted _
  | succ fuel ih =>
    obtain ⟨more, rfl⟩ := Nat.exists_eq_add_of_le' (Nat.le_of_add_left_le hle)
    have h {α : Type} {n : Nat} {r : Nat → Rule α} (hr : IsRule n r) : Built (r fuel) (r more) :=
      ih hr (Nat.le_of_succ_le_succ hle)
    cases hr with
    | program => exact built_program (built_expression h)
    | expression => exact built_expression h
    | binary t => exact built_binary h t
    | operand t => exact built_operand h t
    | chain t left => exact built_chain h t left
    | comparison => exact built_comparison h
    | relation => exact built_relation h
    | factor => exact built_factor h
    | power => exact built_power h
    | exponents base => exact built_exponents h base
    | call => exact built_call h
    | arguments => exact built_arguments h
    | moreArguments => exact built_moreArguments h
    | atom => exact built_atom h
    | guarded => exact built_guarded h
    | choice => exact built_choice h
    | arms => exact built_arms h
    | count => exact built_count h
    | step => exact built_step h
    | loop => exact built_loop h
    | function => exact built_function h
    | signature => exact built_signature h
    | parameters => exact .parameters
    | moreParameters => exact .moreParameters
    | identifier e => exact .identifier e
    | expect e _ => exact .expect _ e
    | peek => exact .peek
    | advance => exact .advance

end Minibasic.Parser

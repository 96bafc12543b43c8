import Minibasic.Proofs.Parser.Outcome

/-!
The parser comes to an end. A rule that succeeds has taken a token, and the fuel that a rule needs
is bounded by the number of tokens ahead and by how deep it can descend before it takes one.
-/

namespace Minibasic.Parser

variable {α : Type} {fuel : Nat}

/-- The rule does not use up its fuel, and takes at least one token if it succeeds. -/
def Consumes (r : Rule α) (ts : List Token) : Prop :=
  (r ts).Post (fun _ rest => rest.length < ts.length) (fun _ _ => True) False

/-- The rule does not use up its fuel, and leaves no more tokens than there were. -/
def Ends (r : Rule α) (ts : List Token) : Prop :=
  (r ts).Post (fun _ rest => rest.length ≤ ts.length) (fun _ _ => True) False

/-- The number of rules that may be entered from an operand before a token is taken. -/
def Tier.depth : Tier → Nat
  | logical => 12
  | additive => 8
  | multiplicative => 6

/-- Fuel is enough for every rule on lists of tokens that are short for it. -/
structure Suffices (fuel : Nat) : Prop where
  expression : ∀ ts, 20 * ts.length + 14 ≤ fuel → Consumes (expression fuel) ts
  binary : ∀ t ts, 20 * ts.length + t.depth + 1 ≤ fuel → Consumes (binary fuel t) ts
  operand : ∀ t ts, 20 * ts.length + t.depth ≤ fuel → Consumes (operand fuel t) ts
  chain : ∀ t left ts, 20 * ts.length + 1 ≤ fuel → Ends (chain fuel t left) ts
  comparison : ∀ ts, 20 * ts.length + 11 ≤ fuel → Consumes (comparison fuel) ts
  relation : ∀ ts, 20 * ts.length + 10 ≤ fuel → Consumes (relation fuel) ts
  factor : ∀ ts, 20 * ts.length + 5 ≤ fuel → Consumes (factor fuel) ts
  power : ∀ ts, 20 * ts.length + 4 ≤ fuel → Consumes (power fuel) ts
  exponents : ∀ base ts, 20 * ts.length + 1 ≤ fuel → Ends (exponents fuel base) ts
  call : ∀ ts, 20 * ts.length + 3 ≤ fuel → Consumes (call fuel) ts
  arguments : ∀ ts, 20 * ts.length + 15 ≤ fuel → Ends (arguments fuel) ts
  moreArguments : ∀ ts, 20 * ts.length + 1 ≤ fuel → Ends (moreArguments fuel) ts
  atom : ∀ ts, 20 * ts.length + 2 ≤ fuel → Consumes (atom fuel) ts
  guarded : ∀ ts, 20 * ts.length + 15 ≤ fuel → Consumes (guarded fuel) ts
  choice : ∀ ts, lexemeAt ts ≠ .eof → 20 * ts.length + 1 ≤ fuel → Consumes (choice fuel) ts
  arms : ∀ ts, 20 * ts.length + 1 ≤ fuel → Ends (arms fuel) ts
  count : ∀ ts, lexemeAt ts ≠ .eof → 20 * ts.length + 1 ≤ fuel → Consumes (count fuel) ts
  step : ∀ ts, 20 * ts.length + 1 ≤ fuel → Ends (step fuel) ts
  loop : ∀ ts, lexemeAt ts ≠ .eof → 20 * ts.length + 1 ≤ fuel → Consumes (loop fuel) ts
  function : ∀ ts, lexemeAt ts ≠ .eof → 20 * ts.length + 1 ≤ fuel → Consumes (function fuel) ts
  signature : ∀ ts, 20 * ts.length + 1 ≤ fuel → Consumes (signature fuel) ts

theorem length_tail_lt {ts : List Token} (h : lexemeAt ts ≠ .eof) :
    ts.tail.length < ts.length := by
  cases ts with
  | nil => exact absurd rfl h
  | cons t rest => simp

theorem length_tail_lt_of_eq {ts : List Token} {l : Lexeme} (h : lexemeAt ts = l)
    (hl : l ≠ .eof) : ts.tail.length < ts.length :=
  length_tail_lt (h ▸ hl)

theorem consumes_expect {l : Lexeme} (hl : l ≠ .eof) (e : Expectation) (ts : List Token) :
    Consumes (expect l e) ts := by
  simp only [Consumes, post_expect, if_neg hl]
  split
  next h => exact length_tail_lt (h ▸ hl)
  next => trivial

theorem consumes_identifier (e : Expectation) (ts : List Token) :
    Consumes (identifier e) ts := by
  simp only [Consumes, identifier, post_bind, post_peek]
  generalize hl : lexemeAt ts = l
  split
  next name => simpa [hl] using length_tail_lt_of_eq hl (by simp)
  next => trivial

theorem ends_moreParameters (ts : List Token) : Ends moreParameters ts := by
  refine (moreParameters_take ts).mono fun ps rest h => ?_
  obtain ⟨read, rfl, -⟩ := h
  simp

theorem consumes_parameters (ts : List Token) : Consumes parameters ts := by
  simp only [Consumes, parameters, post_bind, post_peek]
  generalize hl : lexemeAt ts = l
  split
  next name =>
    have ht := length_tail_lt_of_eq hl (by simp)
    simp only [post_bind, post_pure, post_advance, hl, reduceCtorEq, if_false]
    refine (ends_moreParameters ts.tail).mono fun names rest hr => ?_
    refine (consumes_expect (by decide) _ rest).mono fun _ rest hs => ?_
    omega
  next =>
    simp only [post_bind, post_pure]
    exact consumes_expect (by decide) _ ts

section

variable (h : Suffices fuel)
include h

theorem consumes_expression (ts : List Token) (hf : 20 * ts.length + 14 ≤ fuel + 1) :
    Consumes (expression (fuel + 1)) ts := by
  simp only [Consumes, expression, post_bind, post_peek]
  generalize hl : lexemeAt ts = l
  split
  next =>
    have ht := length_tail_lt_of_eq hl (by simp)
    simp only [post_bind, post_pure, post_advance, hl, reduceCtorEq, if_false]
    refine (consumes_identifier _ ts.tail).mono fun name rest hr => ?_
    refine (consumes_expect (by decide) _ rest).mono fun _ rest hs => ?_
    exact (h.expression rest (by omega)).mono fun _ _ hq => by omega
  next =>
    simp only [post_orElse, ite_self]
    exact h.binary .logical ts (by simp only [Tier.depth]; omega)

theorem consumes_binary (t : Tier) (ts : List Token)
    (hf : 20 * ts.length + t.depth + 1 ≤ fuel + 1) : Consumes (binary (fuel + 1) t) ts := by
  simp only [Consumes, binary, post_bind]
  refine (h.operand t ts (by omega)).mono fun left rest hr => ?_
  exact (h.chain t left rest (by omega)).mono fun _ _ hs => by omega

theorem consumes_operand (t : Tier) (ts : List Token)
    (hf : 20 * ts.length + t.depth ≤ fuel + 1) : Consumes (operand (fuel + 1) t) ts := by
  cases t with
  | logical => exact h.comparison ts (by simp only [Tier.depth] at hf; omega)
  | additive => exact h.binary .multiplicative ts (by simp only [Tier.depth] at hf ⊢; omega)
  | multiplicative => exact h.factor ts (by simp only [Tier.depth] at hf; omega)

theorem ends_chain (t : Tier) (left : Node) (ts : List Token)
    (hf : 20 * ts.length + 1 ≤ fuel + 1) : Ends (chain (fuel + 1) t left) ts := by
  simp only [Ends, chain, post_bind, post_peek]
  generalize ho : t.op? (lexemeAt ts) = o
  split
  next op =>
    have he : lexemeAt ts ≠ .eof := fun h => by cases t <;> simp [h, Tier.op?] at ho
    have ht := length_tail_lt he
    have hd : t.depth ≤ 12 := by cases t <;> decide
    simp only [post_bind, post_advance, he, if_false]
    refine (h.operand t ts.tail (by omega)).mono fun right rest hr => ?_
    exact (h.chain t _ rest (by omega)).mono fun _ _ hs => by omega
  next => exact Nat.le_refl _

theorem consumes_comparison (ts : List Token) (hf : 20 * ts.length + 11 ≤ fuel + 1) :
    Consumes (comparison (fuel + 1)) ts := by
  simp only [Consumes, comparison, post_bind, post_peek]
  generalize hl : lexemeAt ts = l
  split
  next =>
    have ht := length_tail_lt_of_eq hl (by simp)
    simp only [post_bind, post_pure, post_advance, hl, reduceCtorEq, if_false]
    exact (h.comparison ts.tail (by omega)).mono fun _ _ hr => by omega
  next =>
    simp only [post_orElse, ite_self]
    exact h.relation ts (by omega)

theorem consumes_relation (ts : List Token) (hf : 20 * ts.length + 10 ≤ fuel + 1) :
    Consumes (relation (fuel + 1)) ts := by
  simp only [Consumes, relation, post_bind, post_peek]
  refine (h.binary .additive ts (by simp only [Tier.depth]; omega)).mono fun left rest hr => ?_
  generalize ho : comparisonOp? (lexemeAt rest) = o
  split
  next op =>
    have he : lexemeAt rest ≠ .eof := fun h => by simp [h, comparisonOp?] at ho
    have ht := length_tail_lt he
    simp only [post_bind, post_pure, post_advance, he, if_false]
    apply (h.binary .additive rest.tail (by simp only [Tier.depth]; omega)).mono
    intro _ _ hs
    omega
  next => exact hr

theorem consumes_factor (ts : List Token) (hf : 20 * ts.length + 5 ≤ fuel + 1) :
    Consumes (factor (fuel + 1)) ts := by
  simp only [Consumes, factor, post_bind, post_peek]
  generalize ho : sign? (lexemeAt ts) = o
  split
  next op =>
    have he : lexemeAt ts ≠ .eof := fun h => by simp [h, sign?] at ho
    have ht := length_tail_lt he
    simp only [post_bind, post_pure, post_advance, he, if_false]
    exact (h.factor ts.tail (by omega)).mono fun _ _ hr => by omega
  next => exact h.power ts (by omega)

theorem consumes_power (ts : List Token) (hf : 20 * ts.length + 4 ≤ fuel + 1) :
    Consumes (power (fuel + 1)) ts := by
  simp only [Consumes, power, post_bind]
  refine (h.call ts (by omega)).mono fun base rest hr => ?_
  exact (h.exponents base rest (by omega)).mono fun _ _ hs => by omega

theorem ends_exponents (base : Node) (ts : List Token) (hf : 20 * ts.length + 1 ≤ fuel + 1) :
    Ends (exponents (fuel + 1) base) ts := by
  simp only [Ends, exponents, post_bind, post_peek]
  generalize hl : lexemeAt ts = l
  split
  next =>
    have ht := length_tail_lt_of_eq hl (by simp)
    simp only [post_bind, post_advance, hl, reduceCtorEq, if_false]
    refine (h.factor ts.tail (by omega)).mono fun exponent rest hr => ?_
    exact (h.exponents _ rest (by omega)).mono fun _ _ hs => by omega
  next => exact Nat.le_refl _

theorem consumes_call (ts : List Token) (hf : 20 * ts.length + 3 ≤ fuel + 1) :
    Consumes (call (fuel + 1)) ts := by
  simp only [Consumes, call, post_bind, post_peek]
  refine (h.atom ts (by omega)).mono fun callee rest hr => ?_
  generalize hl : lexemeAt rest = l
  split
  next =>
    have ht := length_tail_lt_of_eq hl (by simp)
    simp only [post_bind, post_pure, post_advance, hl, reduceCtorEq, if_false]
    refine (h.arguments rest.tail (by omega)).mono fun as rest hs => ?_
    refine (consumes_expect (by decide) _ rest).mono fun _ rest hq => ?_
    omega
  next => exact hr

theorem ends_arguments (ts : List Token) (hf : 20 * ts.length + 15 ≤ fuel + 1) :
    Ends (arguments (fuel + 1)) ts := by
  simp only [Ends, arguments, post_bind, post_peek]
  generalize hl : lexemeAt ts = l
  split
  next => exact Nat.le_refl _
  next =>
    simp only [post_bind, post_pure, post_orElse, ite_self]
    refine (h.expression ts (by omega)).mono fun e rest hr => ?_
    exact (h.moreArguments rest (by omega)).mono fun _ _ hs => by omega

theorem ends_moreArguments (ts : List Token) (hf : 20 * ts.length + 1 ≤ fuel + 1) :
    Ends (moreArguments (fuel + 1)) ts := by
  simp only [Ends, moreArguments, post_bind, post_peek]
  generalize hl : lexemeAt ts = l
  split
  next =>
    have ht := length_tail_lt_of_eq hl (by simp)
    simp only [post_bind, post_pure, post_advance, hl, reduceCtorEq, if_false]
    refine (h.expression ts.tail (by omega)).mono fun e rest hr => ?_
    exact (h.moreArguments rest (by omega)).mono fun _ _ hs => by omega
  next => exact Nat.le_refl _

theorem consumes_atom (ts : List Token) (hf : 20 * ts.length + 2 ≤ fuel + 1) :
    Consumes (atom (fuel + 1)) ts := by
  simp only [Consumes, atom, post_bind, post_peek]
  generalize hl : lexemeAt ts = l
  split
  case h_10 => trivial
  all_goals
    have he : lexemeAt ts ≠ .eof := by simp [hl]
    have ht := length_tail_lt he
  case h_2 => exact h.choice ts he (by omega)
  case h_3 => exact h.count ts he (by omega)
  case h_4 => exact h.loop ts he (by omega)
  case h_5 => exact h.function ts he (by omega)
  all_goals simp only [post_bind, post_pure, post_advance, he, if_false]
  case h_1 =>
    refine (h.expression ts.tail (by omega)).mono fun e rest hr => ?_
    refine (consumes_expect (by decide) _ rest).mono fun _ rest hs => ?_
    omega
  all_goals exact ht

theorem consumes_guarded (ts : List Token) (hf : 20 * ts.length + 15 ≤ fuel + 1) :
    Consumes (guarded (fuel + 1)) ts := by
  simp only [Consumes, guarded, post_bind, post_pure]
  refine (h.expression ts (by omega)).mono fun test rest hr => ?_
  refine (consumes_expect (by decide) _ rest).mono fun _ rest hs => ?_
  exact (h.expression rest (by omega)).mono fun _ _ hq => by omega

theorem consumes_choice (ts : List Token) (he : lexemeAt ts ≠ .eof)
    (hf : 20 * ts.length + 1 ≤ fuel + 1) : Consumes (choice (fuel + 1)) ts := by
  have ht := length_tail_lt he
  simp only [Consumes, choice, post_bind, post_pure, post_advance, he, if_false]
  refine (h.guarded ts.tail (by omega)).mono fun case rest hr => ?_
  exact (h.arms rest (by omega)).mono fun _ _ hs => by omega

theorem ends_arms (ts : List Token) (hf : 20 * ts.length + 1 ≤ fuel + 1) :
    Ends (arms (fuel + 1)) ts := by
  simp only [Ends, arms, post_bind, post_peek]
  generalize hl : lexemeAt ts = l
  split
  next =>
    have ht := length_tail_lt_of_eq hl (by simp)
    simp only [post_bind, post_pure, post_advance, hl, reduceCtorEq, if_false]
    refine (h.guarded ts.tail (by omega)).mono fun case rest hr => ?_
    exact (h.arms rest (by omega)).mono fun _ _ hs => by omega
  next =>
    have ht := length_tail_lt_of_eq hl (by simp)
    simp only [post_bind, post_pure, post_advance, hl, reduceCtorEq, if_false]
    exact (h.expression ts.tail (by omega)).mono fun _ _ hr => by omega
  next => exact Nat.le_refl _

theorem consumes_count (ts : List Token) (he : lexemeAt ts ≠ .eof)
    (hf : 20 * ts.length + 1 ≤ fuel + 1) : Consumes (count (fuel + 1)) ts := by
  have ht := length_tail_lt he
  simp only [Consumes, count, post_bind, post_pure, post_advance, he, if_false]
  refine (consumes_identifier _ ts.tail).mono fun name rest h₁ => ?_
  refine (consumes_expect (by decide) _ rest).mono fun _ rest h₂ => ?_
  refine (h.expression rest (by omega)).mono fun first rest h₃ => ?_
  refine (consumes_expect (by decide) _ rest).mono fun _ rest h₄ => ?_
  refine (h.expression rest (by omega)).mono fun last rest h₅ => ?_
  refine (h.step rest (by omega)).mono fun by_ rest h₆ => ?_
  refine (consumes_expect (by decide) _ rest).mono fun _ rest h₇ => ?_
  exact (h.expression rest (by omega)).mono fun _ _ h₈ => by omega

theorem ends_step (ts : List Token) (hf : 20 * ts.length + 1 ≤ fuel + 1) :
    Ends (step (fuel + 1)) ts := by
  simp only [Ends, step, post_bind, post_peek]
  generalize hl : lexemeAt ts = l
  split
  next =>
    have ht := length_tail_lt_of_eq hl (by simp)
    simp only [post_bind, post_pure, post_advance, hl, reduceCtorEq, if_false]
    exact (h.expression ts.tail (by omega)).mono fun _ _ hr => by omega
  next => exact Nat.le_refl _

theorem consumes_loop (ts : List Token) (he : lexemeAt ts ≠ .eof)
    (hf : 20 * ts.length + 1 ≤ fuel + 1) : Consumes (loop (fuel + 1)) ts := by
  have ht := length_tail_lt he
  simp only [Consumes, loop, post_bind, post_pure, post_advance, he, if_false]
  exact (h.guarded ts.tail (by omega)).mono fun _ _ hr => by omega

theorem consumes_function (ts : List Token) (he : lexemeAt ts ≠ .eof)
    (hf : 20 * ts.length + 1 ≤ fuel + 1) : Consumes (function (fuel + 1)) ts := by
  have ht := length_tail_lt he
  simp only [Consumes, function, post_bind, post_peek, post_advance, he, if_false]
  generalize hl : lexemeAt ts.tail = l
  split
  next name =>
    have hn := length_tail_lt_of_eq hl (by simp)
    simp only [post_bind, post_pure, post_advance, hl, reduceCtorEq, if_false]
    refine (consumes_expect (by decide) _ ts.tail.tail).mono fun _ rest hr => ?_
    exact (h.signature rest (by omega)).mono fun _ _ hs => by omega
  next =>
    simp only [post_bind, post_pure]
    refine (consumes_expect (by decide) _ ts.tail).mono fun _ rest hr => ?_
    exact (h.signature rest (by omega)).mono fun _ _ hs => by omega

theorem consumes_signature (ts : List Token) (hf : 20 * ts.length + 1 ≤ fuel + 1) :
    Consumes (signature (fuel + 1)) ts := by
  simp only [Consumes, signature, post_bind, post_pure]
  refine (consumes_parameters ts).mono fun ps rest hr => ?_
  refine (consumes_expect (by decide) _ rest).mono fun _ rest hs => ?_
  exact (h.expression rest (by omega)).mono fun _ _ hq => by omega

end

theorem suffices_all (fuel : Nat) : Suffices fuel := by
  induction fuel with
  | zero =>
    constructor
    case operand =>
      intro t ts hf
      cases t <;> simp only [Tier.depth] at hf <;> omega
    all_goals intros; omega
  | succ fuel h =>
    exact {
      expression := consumes_expression h
      binary := consumes_binary h
      operand := consumes_operand h
      chain := ends_chain h
      comparison := consumes_comparison h
      relation := consumes_relation h
      factor := consumes_factor h
      power := consumes_power h
      exponents := ends_exponents h
      call := consumes_call h
      arguments := ends_arguments h
      moreArguments := ends_moreArguments h
      atom := consumes_atom h
      guarded := consumes_guarded h
      choice := consumes_choice h
      arms := ends_arms h
      count := consumes_count h
      step := ends_step h
      loop := consumes_loop h
      function := consumes_function h
      signature := consumes_signature h }

/-- The fuel that a parse is given is never used up. -/
theorem program_ne_exhausted (ts : List Token) : program (enoughFuel ts) ts ≠ .exhausted := by
  have h : (program (enoughFuel ts) ts).Post (fun _ _ => True) (fun _ _ => True) False := by
    simp only [program, post_bind, post_peek]
    apply ((suffices_all _).expression ts (by simp only [enoughFuel]; omega)).mono
    intro e rest _
    split <;> trivial
  intro he
  rw [he] at h
  exact h

end Minibasic.Parser

import Minibasic.Proofs.Grammar.Productions
import Minibasic.Proofs.Parser.Soundness

/-!
What the parser has read can always be completed. A rule that succeeds has read a word of its
language, and one that fails has read the beginning of one.
-/

namespace Minibasic.Parser

open Grammar

variable {α β : Type} {L M : Language Lexeme} {l : Lexeme} {ts : List Token}

/-- The tokens before those that are left make up a word of the language, or the beginning of one
if the rule has failed. -/
abbrev Outcome.Reaches (o : Outcome α) (L : Language Lexeme) (ts : List Token) : Prop :=
  o.Post (fun _ rest => ∃ w ∈ L, Takes w ts rest)
    (fun _ rest => ∃ w ∈ beginnings L, Takes w ts rest) True

theorem Outcome.Reaches.of_le {o : Outcome α} (hLM : L ≤ M) (h : o.Reaches L ts) :
    o.Reaches M ts := by
  refine h.imp (fun _ rest hr => ?_) (fun _ rest hr => ?_) id
  · obtain ⟨w, hw, tw⟩ := hr
    exact ⟨w, hLM hw, tw⟩
  · obtain ⟨w, hw, tw⟩ := hr
    exact ⟨w, beginnings_mono hLM hw, tw⟩

section Combinators

variable {r : Rule α}

theorem reaches_pure (a : α) (ts : List Token) : ((pure a : Rule α) ts).Reaches 1 ts :=
  ⟨[], rfl, .nil⟩

theorem reaches_fail (hL : Inhabited L) (e : Expectation) (ts : List Token) :
    (Rule.fail (α := α) e ts).Reaches L ts :=
  ⟨[], hL.nil_mem_beginnings, .nil⟩

theorem reaches_bind {next : α → Rule β} (hM : Inhabited M) (hr : (r ts).Reaches L ts)
    (hn : ∀ a rest, (next a rest).Reaches M rest) : ((r >>= next) ts).Reaches (L * M) ts := by
  simp only [Outcome.Reaches, post_bind]
  refine hr.imp (fun a mid hmid => ?_) (fun e rest hrest => ?_) id
  · obtain ⟨u, hu, tu⟩ := hmid
    refine (hn a mid).imp (fun b rest hb => ?_) (fun e rest he => ?_) id
    · obtain ⟨v, hv, tv⟩ := hb
      exact ⟨u ++ v, Language.append_mem_mul hu hv, tu.append tv⟩
    · obtain ⟨v, hv, tv⟩ := he
      exact ⟨u ++ v, append_mem_beginnings_mul hu hv, tu.append tv⟩
  · obtain ⟨w, hw, tw⟩ := hrest
    exact ⟨w, mem_beginnings_mul hM hw, tw⟩

/-- A result that is made of that of another rule. -/
theorem reaches_map {f : α → β} (hr : (r ts).Reaches L ts) :
    ((r >>= fun a => pure (f a)) ts).Reaches L ts := by
  have h := reaches_bind inhabited_one hr fun a rest => reaches_pure (f a) rest
  rwa [mul_one] at h

theorem reaches_peek {next : Lexeme → Rule α}
    (h : ∀ l, lexemeAt ts = l → (next l ts).Reaches L ts) :
    ((peek >>= next) ts).Reaches L ts := h _ rfl

theorem reaches_advance (hl : lexemeAt ts = l) (he : l ≠ .eof) :
    (advance ts).Reaches (only l) ts := by
  rw [Outcome.Reaches, post_advance, hl, if_neg he]
  exact ⟨[l], rfl, .cons hl he .nil⟩

theorem reaches_expect (hl : l ≠ .eof) (e : Expectation) (ts : List Token) :
    (expect l e ts).Reaches (only l) ts := by
  refine reaches_peek fun l' hl' => ?_
  split
  next h => exact reaches_advance (hl'.trans h) hl
  next => exact reaches_fail (inhabited_only l) e ts

theorem reaches_identifier (e : Expectation) (ts : List Token) :
    (identifier e ts).Reaches identifiers ts := by
  refine reaches_peek fun l hl => ?_
  split
  next name =>
    refine reaches_map ((reaches_advance hl (by simp)).of_le fun w hw => ?_)
    exact ⟨name, hw⟩
  next => exact reaches_fail inhabited_identifiers e ts

theorem reaches_orElse (hL : Inhabited L) (hr : (r ts).Reaches L ts) (e : Expectation) :
    (r.orElse e ts).Reaches L ts := by
  rw [Outcome.Reaches, post_orElse]
  refine hr.imp (fun _ _ h => h) (fun e' rest h => ?_) id
  split
  · exact ⟨[], hL.nil_mem_beginnings, .nil⟩
  · exact h

end Combinators

theorem reaches_moreParameters (ts : List Token) :
    (moreParameters ts).Reaches moreNames ts := by
  fun_induction moreParameters ts with
  | case1 s name s' ts ih =>
    rw [Outcome.Reaches, post_map]
    refine ih.imp (fun _ rest h => ?_) (fun _ rest h => ?_) id
    · obtain ⟨_, ⟨ps, rfl⟩, tw⟩ := h
      exact ⟨_, ⟨name :: ps, rfl⟩, .cons rfl (by simp) (.cons rfl (by simp) tw)⟩
    · obtain ⟨w, ⟨z, ps, hz⟩, tw⟩ := h
      refine ⟨.comma :: .identifier name :: w, ⟨z, name :: ps, ?_⟩, ?_⟩
      · rw [List.flatMap_cons, ← hz]
        rfl
      · exact .cons rfl (by simp) (.cons rfl (by simp) tw)
  | case2 s ts _ =>
    -- A name is missing behind the comma; any would do.
    exact ⟨[.comma], ⟨[.identifier "x"], ["x"], rfl⟩, .cons rfl (by simp) .nil⟩
  | case3 ts => exact ⟨[], ⟨[], rfl⟩, .nil⟩

theorem names_le (x : String) :
    only (.identifier x) * (moreNames * only .closeParen) ≤ parameterLists := by
  refine only_mul_le _ fun w hw => ?_
  obtain ⟨_, ⟨ps, rfl⟩, _, rfl, rfl⟩ := hw
  exact ⟨x :: ps, by rw [parameterLexemes_cons]; rfl⟩

theorem reaches_parameters (ts : List Token) : (parameters ts).Reaches parameterLists ts := by
  refine reaches_peek fun l hl => ?_
  split
  next name =>
    refine Outcome.Reaches.of_le (names_le name) ?_
    refine reaches_bind (by simp) (reaches_advance hl (by simp)) fun _ _ => ?_
    refine reaches_bind (by simp) (reaches_moreParameters _) fun _ _ => ?_
    exact reaches_map (reaches_expect (by simp) _ _)
  next => exact reaches_map ((reaches_expect (by simp) _ _).of_le noName_le)

/-- With this fuel every rule stays within its language. -/
structure Viable (fuel : Nat) : Prop where
  expression : ∀ ts, (expression fuel ts).Reaches (sentences .expression) ts
  binary : ∀ t ts, (binary fuel t ts).Reaches
    (sentences (Grammar.operand t) * sentences (.operations t)) ts
  operand : ∀ t ts, (operand fuel t ts).Reaches (sentences (Grammar.operand t)) ts
  chain : ∀ t left ts, (chain fuel t left ts).Reaches (sentences (.operations t)) ts
  comparison : ∀ ts, (comparison fuel ts).Reaches (sentences .comparison) ts
  relation : ∀ ts, (relation fuel ts).Reaches (sentences .comparison) ts
  factor : ∀ ts, (factor fuel ts).Reaches (sentences .factor) ts
  power : ∀ ts, (power fuel ts).Reaches (sentences .power) ts
  exponents : ∀ base ts, (exponents fuel base ts).Reaches (sentences .exponents) ts
  call : ∀ ts, (call fuel ts).Reaches (sentences .call) ts
  arguments : ∀ ts, (arguments fuel ts).Reaches (sentences .arguments) ts
  moreArguments : ∀ ts, (moreArguments fuel ts).Reaches (sentences .moreArguments) ts
  atom : ∀ ts, (atom fuel ts).Reaches (sentences .atom) ts
  guarded : ∀ ts, (guarded fuel ts).Reaches guardeds ts
  choice : ∀ ts, lexemeAt ts = .keyword .if_ → (choice fuel ts).Reaches (sentences .atom) ts
  arms : ∀ ts, (arms fuel ts).Reaches (sentences .arms) ts
  count : ∀ ts, lexemeAt ts = .keyword .for_ → (count fuel ts).Reaches (sentences .atom) ts
  step : ∀ ts, (step fuel ts).Reaches (sentences .step) ts
  loop : ∀ ts, lexemeAt ts = .keyword .while_ → (loop fuel ts).Reaches (sentences .atom) ts
  function : ∀ ts, lexemeAt ts = .keyword .fun_ → (function fuel ts).Reaches (sentences .atom) ts
  signature : ∀ ts, (signature fuel ts).Reaches
    (parameterLists * (only .arrow * sentences .expression)) ts

section

variable {fuel : Nat} (h : Viable fuel)
include h

theorem reaches_expression (ts : List Token) :
    (expression (fuel + 1) ts).Reaches (sentences .expression) ts := by
  refine reaches_peek fun l hl => ?_
  split
  · refine Outcome.Reaches.of_le assign_le ?_
    refine reaches_bind (by simp) (reaches_advance hl (by simp)) fun _ _ => ?_
    refine reaches_bind (by simp) (reaches_identifier _ _) fun _ _ => ?_
    refine reaches_bind (by simp) (reaches_expect (by simp) _ _) fun _ rest => ?_
    exact reaches_map (h.expression rest)
  · exact reaches_orElse inhabited_expression ((h.binary .logical ts).of_le logical_le) _

theorem reaches_binary (t : Tier) (ts : List Token) : (binary (fuel + 1) t ts).Reaches
    (sentences (Grammar.operand t) * sentences (.operations t)) ts :=
  reaches_bind (by simp) (h.operand t ts) fun left rest => h.chain t left rest

theorem reaches_operand (t : Tier) (ts : List Token) :
    (operand (fuel + 1) t ts).Reaches (sentences (Grammar.operand t)) ts := by
  cases t with
  | logical => exact h.comparison ts
  | additive => exact (h.binary .multiplicative ts).of_le product_le
  | multiplicative => exact h.factor ts

theorem reaches_chain (t : Tier) (left : Node) (ts : List Token) :
    (chain (fuel + 1) t left ts).Reaches (sentences (.operations t)) ts := by
  refine reaches_peek fun l hl => ?_
  cases ho : t.op? l with
  | some op =>
    obtain ⟨hop, rfl⟩ := op?_eq_some_iff.mp ho
    refine Outcome.Reaches.of_le (operation_le hop) ?_
    refine reaches_bind (by simp) (reaches_advance hl (lexeme_ne_eof op)) ?_
    intro _ mid
    exact reaches_bind (by simp) (h.operand t mid) fun right rest => h.chain t _ rest
  | none => exact ⟨[], nil_mem_operations t, .nil⟩

theorem reaches_comparison (ts : List Token) :
    (comparison (fuel + 1) ts).Reaches (sentences .comparison) ts := by
  refine reaches_peek fun l hl => ?_
  split
  · refine Outcome.Reaches.of_le not_le ?_
    refine reaches_bind (by simp) (reaches_advance hl (by simp)) fun _ rest => ?_
    exact reaches_map (h.comparison rest)
  · exact reaches_orElse inhabited_comparison (h.relation ts) _

theorem reaches_relation (ts : List Token) :
    (relation (fuel + 1) ts).Reaches (sentences .comparison) ts := by
  refine Outcome.Reaches.of_le relation_le ?_
  refine reaches_bind (by simp) ((h.binary .additive ts).of_le sum_le) fun left mid => ?_
  refine reaches_peek fun l hl => ?_
  cases ho : comparisonOp? l with
  | some op =>
    obtain ⟨hop, rfl⟩ := comparisonOp?_eq_some_iff.mp ho
    refine Outcome.Reaches.of_le (comparisonSuffix_le hop) ?_
    refine reaches_bind (by simp) (reaches_advance hl (lexeme_ne_eof op)) fun _ rest => ?_
    exact reaches_map ((h.binary .additive rest).of_le sum_le)
  | none => exact ⟨[], nil_mem_comparisonSuffixes, .nil⟩

theorem reaches_factor (ts : List Token) :
    (factor (fuel + 1) ts).Reaches (sentences .factor) ts := by
  refine reaches_peek fun l hl => ?_
  cases ho : sign? l with
  | some op =>
    obtain ⟨hop, rfl⟩ := sign?_eq_some_iff.mp ho
    refine Outcome.Reaches.of_le (sign_le hop) ?_
    refine reaches_bind (by simp) (reaches_advance hl (sign_ne_eof op)) fun _ rest => ?_
    exact reaches_map (h.factor rest)
  | none => exact (h.power ts).of_le power_le

theorem reaches_power (ts : List Token) :
    (power (fuel + 1) ts).Reaches (sentences .power) ts := by
  refine Outcome.Reaches.of_le raise_le ?_
  exact reaches_bind (by simp) (h.call ts) fun base rest => h.exponents base rest

theorem reaches_exponents (base : Node) (ts : List Token) :
    (exponents (fuel + 1) base ts).Reaches (sentences .exponents) ts := by
  refine reaches_peek fun l hl => ?_
  split
  · refine Outcome.Reaches.of_le exponent_le ?_
    refine reaches_bind (by simp) (reaches_advance hl (by simp)) fun _ mid => ?_
    exact reaches_bind (by simp) (h.factor mid) fun e rest => h.exponents _ rest
  · exact ⟨[], nil_mem_exponents, .nil⟩

theorem reaches_call (ts : List Token) :
    (call (fuel + 1) ts).Reaches (sentences .call) ts := by
  refine Outcome.Reaches.of_le call_le ?_
  refine reaches_bind (by simp) (h.atom ts) fun callee mid => ?_
  refine reaches_peek fun l hl => ?_
  split
  · refine Outcome.Reaches.of_le callSuffix_le ?_
    refine reaches_bind (by simp) (reaches_advance hl (by simp)) fun _ mid => ?_
    refine reaches_bind (by simp) (h.arguments mid) fun _ rest => ?_
    exact reaches_map (reaches_expect (by simp) _ rest)
  · exact ⟨[], nil_mem_callSuffixes, .nil⟩

theorem reaches_arguments (ts : List Token) :
    (arguments (fuel + 1) ts).Reaches (sentences .arguments) ts := by
  refine reaches_peek fun l _ => ?_
  split
  · exact ⟨[], ⟨[], .noArgument⟩, .nil⟩
  · refine Outcome.Reaches.of_le argument_le ?_
    have he := reaches_orElse inhabited_expression (h.expression ts) .argument
    refine reaches_bind (by simp) he fun _ rest => ?_
    exact reaches_map (h.moreArguments rest)

theorem reaches_moreArguments (ts : List Token) :
    (moreArguments (fuel + 1) ts).Reaches (sentences .moreArguments) ts := by
  refine reaches_peek fun l hl => ?_
  split
  · refine Outcome.Reaches.of_le more_le ?_
    refine reaches_bind (by simp) (reaches_advance hl (by simp)) fun _ mid => ?_
    refine reaches_bind (by simp) (h.expression mid) fun _ rest => ?_
    exact reaches_map (h.moreArguments rest)
  · exact ⟨[], ⟨[], .noMore⟩, .nil⟩

theorem reaches_atom (ts : List Token) :
    (atom (fuel + 1) ts).Reaches (sentences .atom) ts := by
  refine reaches_peek fun l hl => ?_
  split
  case h_1 =>
    refine Outcome.Reaches.of_le group_le ?_
    refine reaches_bind (by simp) (reaches_advance hl (by simp)) fun _ mid => ?_
    refine reaches_bind (by simp) (h.expression mid) fun _ rest => ?_
    exact reaches_map (reaches_expect (by simp) _ rest)
  case h_2 => exact h.choice ts hl
  case h_3 => exact h.count ts hl
  case h_4 => exact h.loop ts hl
  case h_5 => exact h.function ts hl
  case h_10 => exact reaches_fail inhabited_atom _ ts
  -- A literal or a name is an atom of its own.
  all_goals
    refine reaches_map ((reaches_advance hl (by simp)).of_le fun w hw => ?_)
    obtain rfl : w = [_] := hw
  · exact ⟨_, .identifier⟩
  · exact ⟨_, .string⟩
  · exact ⟨_, .float⟩
  · exact ⟨_, .int⟩

theorem reaches_guarded (ts : List Token) : (guarded (fuel + 1) ts).Reaches guardeds ts := by
  refine Outcome.Reaches.of_le guarded_le ?_
  refine reaches_bind (by simp) (h.expression ts) fun _ mid => ?_
  refine reaches_bind (by simp) (reaches_expect (by simp) _ mid) fun _ rest => ?_
  exact reaches_map (h.expression rest)

theorem reaches_choice (ts : List Token) (hl : lexemeAt ts = .keyword .if_) :
    (choice (fuel + 1) ts).Reaches (sentences .atom) ts := by
  refine Outcome.Reaches.of_le choice_le ?_
  refine reaches_bind (by simp) (reaches_advance hl (by simp)) fun _ mid => ?_
  refine reaches_bind (by simp) (h.guarded mid) fun _ rest => ?_
  exact reaches_map (h.arms rest)

theorem reaches_arms (ts : List Token) :
    (arms (fuel + 1) ts).Reaches (sentences .arms) ts := by
  refine reaches_peek fun l hl => ?_
  split
  · refine Outcome.Reaches.of_le elif_le ?_
    refine reaches_bind (by simp) (reaches_advance hl (by simp)) fun _ mid => ?_
    refine reaches_bind (by simp) (h.guarded mid) fun _ rest => ?_
    exact reaches_map (h.arms rest)
  · refine Outcome.Reaches.of_le otherwise_le ?_
    refine reaches_bind (by simp) (reaches_advance hl (by simp)) fun _ rest => ?_
    exact reaches_map (h.expression rest)
  · exact ⟨[], nil_mem_arms, .nil⟩

theorem reaches_count (ts : List Token) (hl : lexemeAt ts = .keyword .for_) :
    (count (fuel + 1) ts).Reaches (sentences .atom) ts := by
  refine Outcome.Reaches.of_le count_le ?_
  refine reaches_bind (by simp) (reaches_advance hl (by simp)) fun _ r₁ => ?_
  refine reaches_bind (by simp) (reaches_identifier _ r₁) fun _ r₂ => ?_
  refine reaches_bind (by simp) (reaches_expect (by simp) _ r₂) fun _ r₃ => ?_
  refine reaches_bind (by simp) (h.expression r₃) fun _ r₄ => ?_
  refine reaches_bind (by simp) (reaches_expect (by simp) _ r₄) fun _ r₅ => ?_
  refine reaches_bind (by simp) (h.expression r₅) fun _ r₆ => ?_
  refine reaches_bind (by simp) (h.step r₆) fun _ r₇ => ?_
  refine reaches_bind (by simp) (reaches_expect (by simp) _ r₇) fun _ r₈ => ?_
  exact reaches_map (h.expression r₈)

theorem reaches_step (ts : List Token) :
    (step (fuel + 1) ts).Reaches (sentences .step) ts := by
  refine reaches_peek fun l hl => ?_
  split
  · refine Outcome.Reaches.of_le step_le ?_
    refine reaches_bind (by simp) (reaches_advance hl (by simp)) fun _ rest => ?_
    exact reaches_map (h.expression rest)
  · exact ⟨[], ⟨none, .noStep⟩, .nil⟩

theorem reaches_loop (ts : List Token) (hl : lexemeAt ts = .keyword .while_) :
    (loop (fuel + 1) ts).Reaches (sentences .atom) ts := by
  refine Outcome.Reaches.of_le loop_le ?_
  refine reaches_bind (by simp) (reaches_advance hl (by simp)) fun _ rest => ?_
  exact reaches_map (h.guarded rest)

theorem reaches_function (ts : List Token) (hl : lexemeAt ts = .keyword .fun_) :
    (function (fuel + 1) ts).Reaches (sentences .atom) ts := by
  refine Outcome.Reaches.of_le function_le ?_
  refine reaches_bind (by simp) (reaches_advance hl (by simp)) fun _ r₁ => ?_
  refine reaches_peek fun l hn => ?_
  split
  next name =>
    refine Outcome.Reaches.of_le (name_mul_le name) ?_
    refine reaches_bind (by simp) (reaches_advance hn (by simp)) fun _ r₂ => ?_
    refine reaches_bind (by simp) (reaches_expect (by simp) _ r₂) fun _ r₃ => ?_
    exact reaches_map (h.signature r₃)
  next =>
    refine Outcome.Reaches.of_le le_optionalNames_mul ?_
    refine reaches_bind (by simp) (reaches_expect (by simp) _ r₁) fun _ r₂ => ?_
    exact reaches_map (h.signature r₂)

theorem reaches_signature (ts : List Token) : (signature (fuel + 1) ts).Reaches
    (parameterLists * (only .arrow * sentences .expression)) ts := by
  refine reaches_bind (by simp) (reaches_parameters ts) fun _ mid => ?_
  refine reaches_bind (by simp) (reaches_expect (by simp) _ mid) fun _ rest => ?_
  exact reaches_map (h.expression rest)

end

theorem viable (fuel : Nat) : Viable fuel := by
  induction fuel with
  | zero => constructor <;> intros <;> trivial
  | succ fuel h =>
    exact {
      expression := reaches_expression h
      binary := reaches_binary h
      operand := reaches_operand h
      chain := reaches_chain h
      comparison := reaches_comparison h
      relation := reaches_relation h
      factor := reaches_factor h
      power := reaches_power h
      exponents := reaches_exponents h
      call := reaches_call h
      arguments := reaches_arguments h
      moreArguments := reaches_moreArguments h
      atom := reaches_atom h
      guarded := reaches_guarded h
      choice := reaches_choice h
      arms := reaches_arms h
      count := reaches_count h
      step := reaches_step h
      loop := reaches_loop h
      function := reaches_function h
      signature := reaches_signature h }

end Minibasic.Parser

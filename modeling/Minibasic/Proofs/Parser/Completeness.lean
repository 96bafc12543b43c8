import Minibasic.Proofs.Grammar.Continuation
import Minibasic.Proofs.Parser.Progress
import Minibasic.Proofs.Parser.Soundness

/-!
What the grammar derives, the parser reads. A rule that finds a word of its phrase before a word of
`K` succeeds and leaves a word of `K`. It need not be the same word, since the rule may take lexemes
that the derivation gave to what follows; a language that yields them has the rest as well.
-/

namespace Minibasic.Parser

open Grammar

variable {α : Type} {K : Language Lexeme} {l : Lexeme} {w : List Lexeme} {ts : List Token}

def lexemes (ts : List Token) : List Lexeme := ts.map Token.lexeme

theorem lexemeAt_of_lexemes (h : lexemes ts = l :: w) : lexemeAt ts = l := by
  cases ts with
  | nil => cases h
  | cons t ts => exact (List.cons.inj h).1

theorem lexemes_tail (h : lexemes ts = l :: w) : lexemes ts.tail = w := by
  cases ts with
  | nil => cases h
  | cons t ts => exact (List.cons.inj h).2

theorem headD_lexemes (ts : List Token) : (lexemes ts).headD .eof = lexemeAt ts := by
  cases ts <;> rfl

theorem lexemes_eq_cons (h : lexemeAt ts = l) (hl : l ≠ .eof) :
    lexemes ts = l :: lexemes ts.tail := by
  obtain ⟨s, rest, rfl⟩ := exists_cons_of_lexemeAt h hl
  rfl

/-- The rule does not fail, and the lexemes after its result are in `K`. -/
abbrev Outcome.Leaves (o : Outcome α) (K : Language Lexeme) : Prop :=
  o.Post (fun _ rest => lexemes rest ∈ K) (fun _ _ => False) True

/-- The rule succeeds before any word that a yielding language can follow. -/
def Completes (r : Rule α) (L : Language Lexeme) : Prop :=
  ∀ K, Yielding K → ∀ ts, lexemes ts ∈ L * K → (r ts).Leaves K

/-- Every rule completes its phrase. -/
structure Complete (fuel : Nat) : Prop where
  expression : Completes (expression fuel) (sentences .expression)
  binary : ∀ t, Completes (binary fuel t)
    (sentences (Grammar.operand t) * sentences (.operations t))
  operand : ∀ t, Completes (operand fuel t) (sentences (Grammar.operand t))
  chain : ∀ t left, Completes (chain fuel t left) (sentences (.operations t))
  comparison : Completes (comparison fuel) (sentences .comparison)
  relation : Completes (relation fuel) (sentences .arithmetic * comparisonSuffixes)
  factor : Completes (factor fuel) (sentences .factor)
  power : Completes (power fuel) (sentences .power)
  exponents : ∀ base, Completes (exponents fuel base) (sentences .exponents)
  call : Completes (call fuel) (sentences .call)
  arguments : ∀ K ts, lexemes ts ∈ sentences .arguments * (only .closeParen * K) →
    (arguments fuel ts).Leaves (only .closeParen * K)
  moreArguments : ∀ K ts, lexemes ts ∈ sentences .moreArguments * (only .closeParen * K) →
    (moreArguments fuel ts).Leaves (only .closeParen * K)
  atom : Completes (atom fuel) (sentences .atom)
  guarded : Completes (guarded fuel) guardeds
  choice : ∀ K, Yielding K → ∀ ts,
    lexemes ts ∈ only (.keyword .if_) * (guardeds * (sentences .arms * K)) →
      (choice fuel ts).Leaves K
  arms : Completes (arms fuel) (sentences .arms)
  count : ∀ K, Yielding K → ∀ x ts, lexemes ts ∈ only (.keyword .for_) *
    (only (.identifier x) * (only .equal * (sentences .expression * (only (.keyword .to_) *
      (sentences .expression * (sentences .step * (only (.keyword .then_) *
        (sentences .expression * K)))))))) → (count fuel ts).Leaves K
  step : ∀ K ts, lexemes ts ∈ sentences .step * (only (.keyword .then_) * K) →
    (step fuel ts).Leaves (only (.keyword .then_) * K)
  loop : ∀ K, Yielding K → ∀ ts, lexemes ts ∈ only (.keyword .while_) * (guardeds * K) →
    (loop fuel ts).Leaves K
  function : ∀ K, Yielding K → ∀ x : Option String, ∀ ps ts, lexemes ts ∈ only (.keyword .fun_) *
    ({x.toList.map Lexeme.identifier} * (only .openParen * ({parameterLexemes ps} *
      (only .closeParen * (only .arrow * (sentences .expression * K)))))) →
        (function fuel ts).Leaves K
  signature : ∀ K, Yielding K → ∀ ps ts, lexemes ts ∈ {parameterLexemes ps} *
    (only .closeParen * (only .arrow * (sentences .expression * K))) →
      (signature fuel ts).Leaves K

theorem lexemeAt_of_mem (h : lexemes ts ∈ only l * K) : lexemeAt ts = l := by
  obtain ⟨w, -, hts⟩ := exists_of_mem_only_mul h
  exact lexemeAt_of_lexemes hts

theorem tail_mem (h : lexemes ts ∈ only l * K) : lexemes ts.tail ∈ K := by
  obtain ⟨w, hw, hts⟩ := exists_of_mem_only_mul h
  exact lexemes_tail hts ▸ hw

theorem leaves_expect {e : Expectation} (h : lexemes ts ∈ only l * K) (hl : l ≠ .eof) :
    (expect l e ts).Leaves K := by
  simp only [post_expect, lexemeAt_of_mem h, if_true, if_neg hl]
  exact tail_mem h

theorem leaves_identifier {e : Expectation} {x : String}
    (h : lexemes ts ∈ only (.identifier x) * K) : (identifier e ts).Leaves K := by
  simp only [identifier, post_bind, post_peek, post_pure, post_advance, lexemeAt_of_mem h,
    reduceCtorEq, if_false]
  exact tail_mem h

/-- The lexeme at the front of a phrase is not one that opens only looser ones. -/
theorem lexemeAt_ne_of_mem {p : Tree → Phrase} (h : lexemes ts ∈ sentences p * K) {k : Level}
    (hp : ∀ e, (p e).level = k) (hl : (opening l).rank < k.rank) : lexemeAt ts ≠ l := by
  obtain ⟨u, ⟨e, de⟩, z, -, huz⟩ := h
  intro hts
  have hr := de.rank_le_opening z
  change u ++ z = lexemes ts at huz
  rw [huz, headD_lexemes, hts, hp e] at hr
  omega

theorem moreParameters_complete (ps : List String) (ts : List Token)
    (hts : lexemes ts = (ps.flatMap fun p => [.comma, .identifier p]) ++ .closeParen :: w) :
    (moreParameters ts).Leaves (only .closeParen * {w}) := by
  induction ps generalizing ts with
  | nil =>
    obtain ⟨s, ts, rfl⟩ := exists_cons_of_lexemeAt (lexemeAt_of_lexemes hts) (by simp)
    exact cons_mem_only_mul.2 (lexemes_tail hts)
  | cons p ps ih =>
    obtain ⟨s, ts, rfl⟩ := exists_cons_of_lexemeAt (lexemeAt_of_lexemes hts) (by simp)
    have ht : lexemes ts = _ := lexemes_tail hts
    obtain ⟨s', ts, rfl⟩ := exists_cons_of_lexemeAt (lexemeAt_of_lexemes ht) (by simp)
    apply (post_map _ _).mpr
    exact ih ts (lexemes_tail ht)

theorem parameters_complete (ps : List String)
    (hts : lexemes ts ∈ {parameterLexemes ps} * (only .closeParen * K)) :
    (parameters ts).Leaves K := by
  obtain ⟨_, rfl, z, hz, hts⟩ := hts
  obtain ⟨w, hw, rfl⟩ := exists_of_mem_only_mul hz
  simp only [parameters, post_bind, post_peek]
  cases ps with
  | nil =>
    simp only [lexemeAt_of_lexemes hts.symm, post_bind, post_pure]
    exact leaves_expect (hts ▸ hz) (by simp)
  | cons p ps =>
    rw [parameterLexemes_cons] at hts
    simp only [lexemeAt_of_lexemes hts.symm, post_bind, post_pure, post_advance, reduceCtorEq,
      if_false]
    refine (moreParameters_complete ps _ (lexemes_tail hts.symm)).mono fun _ rest hr => ?_
    refine (leaves_expect hr (by simp)).mono fun _ rest hr => ?_
    exact hr ▸ hw

section

variable {fuel : Nat} (h : Complete fuel)
include h

theorem expression_completes : Completes (expression (fuel + 1)) (sentences .expression) := by
  intro K hK ts hts
  simp only [expression, post_bind, post_peek]
  rcases mem_expression_mul hts with ⟨x, hts⟩ | hts
  · simp only [lexemeAt_of_mem hts, post_bind, post_pure, post_advance, reduceCtorEq, if_false]
    refine (leaves_identifier (tail_mem hts)).mono fun _ r₁ h₁ => ?_
    refine (leaves_expect h₁ (by simp)).mono fun _ r₂ h₂ => ?_
    exact h.expression K hK r₂ h₂
  · have hv := lexemeAt_ne_of_mem (l := .keyword .var) hts (fun _ => rfl) (by decide)
    -- No comparison starts with VAR.
    generalize lexemeAt ts = l at hv
    split
    next => exact absurd rfl hv
    next =>
      simp only [post_orElse, ite_self]
      exact h.binary .logical K hK ts (by rw [mul_assoc]; exact hts)

theorem binary_completes (t : Tier) : Completes (binary (fuel + 1) t)
    (sentences (Grammar.operand t) * sentences (.operations t)) := by
  intro K hK ts hts
  simp only [binary, post_bind]
  rw [mul_assoc] at hts
  have hT := yielding_mul (yielding_operations t) (nil_mem_operations t) hK
  exact (h.operand t _ hT ts hts).mono fun left rest hr => h.chain t left K hK rest hr

theorem operand_completes (t : Tier) :
    Completes (operand (fuel + 1) t) (sentences (Grammar.operand t)) := by
  intro K hK ts hts
  cases t with
  | logical => exact h.comparison K hK ts hts
  | additive =>
    exact h.binary .multiplicative K hK ts (by rw [mul_assoc]; exact mem_term_mul hts)
  | multiplicative => exact h.factor K hK ts hts

theorem chain_completes (t : Tier) (left : Node) :
    Completes (chain (fuel + 1) t left) (sentences (.operations t)) := by
  intro K hK ts hts
  have hT := yielding_mul (yielding_operations t) (nil_mem_operations t) hK
  simp only [chain, post_bind, post_peek]
  generalize ho : t.op? (lexemeAt ts) = o
  split
  next op =>
    obtain ⟨hop, hl⟩ := op?_eq_some_iff.mp ho
    have he : lexemeAt ts ≠ .eof := hl ▸ lexeme_ne_eof op
    simp only [post_bind, post_advance, he, if_false]
    rw [lexemes_eq_cons hl (lexeme_ne_eof op)] at hts
    -- The operator may have belonged to what follows the operations.
    have hw := hT _ _ _ (continuation?_operator hop) hts
    exact (h.operand t _ hT _ hw).mono fun right rest hr => h.chain t _ K hK rest hr
  next =>
    -- No operation starts with the lexeme, so there is none.
    refine mem_of_front_not_mem hts fun v hv => ?_
    obtain ⟨op, hop, hl, -⟩ := cons_mem_operations hv
    rw [headD_lexemes] at hl
    rw [op?_eq_some_iff.mpr ⟨hop, hl⟩] at ho
    cases ho

theorem comparison_completes : Completes (comparison (fuel + 1)) (sentences .comparison) := by
  intro K hK ts hts
  simp only [comparison, post_bind, post_peek]
  rcases mem_comparison_mul hts with hts | hts
  · simp only [lexemeAt_of_mem hts, post_bind, post_pure, post_advance, reduceCtorEq, if_false]
    exact h.comparison K hK _ (tail_mem hts)
  · have hn := lexemeAt_ne_of_mem (l := .keyword .not) hts (fun _ => rfl) (by decide)
    generalize lexemeAt ts = l at hn
    split
    next => exact absurd rfl hn
    next =>
      simp only [post_orElse, ite_self]
      exact h.relation K hK ts (by rw [mul_assoc]; exact hts)

theorem arithmetic_completes : Completes (binary fuel .additive) (sentences .arithmetic) := by
  intro K hK ts hts
  exact h.binary .additive K hK ts (by rw [mul_assoc]; exact mem_arithmetic_mul hts)

theorem relation_completes :
    Completes (relation (fuel + 1)) (sentences .arithmetic * comparisonSuffixes) := by
  intro K hK ts hts
  rw [mul_assoc] at hts
  have hT := yielding_mul yielding_comparisonSuffixes nil_mem_comparisonSuffixes hK
  simp only [relation, post_bind, post_peek]
  refine (arithmetic_completes h _ hT ts hts).mono fun left mid hmid => ?_
  generalize ho : comparisonOp? (lexemeAt mid) = o
  split
  next op =>
    obtain ⟨hop, hl⟩ := comparisonOp?_eq_some_iff.mp ho
    have he : lexemeAt mid ≠ .eof := hl ▸ lexeme_ne_eof op
    simp only [post_bind, post_pure, post_advance, he, if_false]
    rw [lexemes_eq_cons hl (lexeme_ne_eof op)] at hmid
    -- After one comparison no more of the suffix is left, which is the language `1`.
    have hw := hK.take (M := 1) (continuation?_comparison hop) (fun v hv => ?_) rfl hmid
    · rw [one_mul] at hw
      exact arithmetic_completes h K hK _ hw
    · rw [mul_one]
      exact (cons_mem_comparisonSuffixes hv).choose_spec.2.2
  next =>
    refine mem_of_front_not_mem hmid fun v hv => ?_
    obtain ⟨op, hop, hl, -⟩ := cons_mem_comparisonSuffixes hv
    rw [headD_lexemes] at hl
    rw [comparisonOp?_eq_some_iff.mpr ⟨hop, hl⟩] at ho
    cases ho

theorem factor_completes : Completes (factor (fuel + 1)) (sentences .factor) := by
  intro K hK ts hts
  simp only [factor, post_bind, post_peek]
  rcases mem_factor_mul hts with ⟨op, hop, hts⟩ | hts
  · have hl := lexemeAt_of_mem hts
    have he : lexemeAt ts ≠ .eof := hl ▸ sign_ne_eof op
    simp only [sign?_eq_some_iff.mpr ⟨hop, hl⟩, post_bind, post_pure, post_advance, he, if_false]
    exact h.factor K hK _ (tail_mem hts)
  · generalize ho : sign? (lexemeAt ts) = o
    split
    next op =>
      obtain ⟨hop, hl⟩ := sign?_eq_some_iff.mp ho
      refine absurd hl (lexemeAt_ne_of_mem hts (fun _ => rfl) ?_)
      simp only [signs, List.mem_cons, List.not_mem_nil, or_false] at hop
      rcases hop with rfl | rfl <;> decide
    next => exact h.power K hK ts hts

theorem power_completes : Completes (power (fuel + 1)) (sentences .power) := by
  intro K hK ts hts
  have hT := yielding_mul yielding_exponents nil_mem_exponents hK
  simp only [power, post_bind]
  exact (h.call _ hT ts (mem_power_mul hts)).mono fun base rest hr => h.exponents base K hK rest hr

theorem exponents_completes (base : Node) :
    Completes (exponents (fuel + 1) base) (sentences .exponents) := by
  intro K hK ts hts
  have hT := yielding_mul yielding_exponents nil_mem_exponents hK
  simp only [exponents, post_bind, post_peek]
  generalize hl : lexemeAt ts = l
  split
  next =>
    simp only [post_bind, post_advance, hl, reduceCtorEq, if_false]
    rw [lexemes_eq_cons hl (by simp)] at hts
    have hw := hT _ _ _ rfl hts
    exact (h.factor _ hT _ hw).mono fun e rest hr => h.exponents _ K hK rest hr
  next hne =>
    refine mem_of_front_not_mem hts fun v hv => ?_
    rw [headD_lexemes] at hv
    exact hne (hl ▸ (cons_mem_exponents hv).1)

theorem call_completes : Completes (call (fuel + 1)) (sentences .call) := by
  intro K hK ts hts
  have hT := yielding_mul yielding_callSuffixes nil_mem_callSuffixes hK
  simp only [call, post_bind, post_peek]
  refine (h.atom _ hT ts (mem_call_mul hts)).mono fun callee mid hmid => ?_
  generalize hl : lexemeAt mid = l
  split
  next =>
    simp only [post_bind, post_pure, post_advance, hl, reduceCtorEq, if_false]
    rw [lexemes_eq_cons hl (by simp)] at hmid
    -- The arguments may have been those of an outer call.
    have hw := hK.take (M := 1) rfl (fun v hv => ?_) rfl hmid
    · rw [one_mul, mul_assoc] at hw
      refine (h.arguments K _ hw).mono fun as rest hr => ?_
      exact leaves_expect hr (by simp)
    · rw [mul_one]
      exact (cons_mem_callSuffixes hv).2
  next hne =>
    refine mem_of_front_not_mem hmid fun v hv => ?_
    rw [headD_lexemes] at hv
    exact hne (hl ▸ (cons_mem_callSuffixes hv).1)

theorem arguments_complete (K : Language Lexeme) (ts : List Token)
    (hts : lexemes ts ∈ sentences .arguments * (only .closeParen * K)) :
    (arguments (fuel + 1) ts).Leaves (only .closeParen * K) := by
  simp only [arguments, post_bind, post_peek]
  rcases mem_arguments_mul hts with hts | hts
  · simp only [lexemeAt_of_mem hts, post_pure]
    exact hts
  · have hc := lexemeAt_ne_of_mem (l := .closeParen) hts (fun _ => rfl) (by decide)
    generalize lexemeAt ts = l at hc
    split
    next => exact absurd rfl hc
    next =>
      simp only [post_bind, post_pure, post_orElse, ite_self]
      refine (h.expression _ yielding_moreArguments ts hts).mono fun e rest hr => ?_
      exact h.moreArguments K rest hr

theorem moreArguments_complete (K : Language Lexeme) (ts : List Token)
    (hts : lexemes ts ∈ sentences .moreArguments * (only .closeParen * K)) :
    (moreArguments (fuel + 1) ts).Leaves (only .closeParen * K) := by
  simp only [moreArguments, post_bind, post_peek]
  rcases mem_moreArguments_mul hts with hts | hts
  · simp only [lexemeAt_of_mem hts, post_pure]
    exact hts
  · simp only [lexemeAt_of_mem hts, post_bind, post_pure, post_advance, reduceCtorEq, if_false]
    refine (h.expression _ yielding_moreArguments _ (tail_mem hts)).mono fun e rest hr => ?_
    exact h.moreArguments K rest hr

theorem guarded_completes : Completes (guarded (fuel + 1)) guardeds := by
  intro K hK ts hts
  simp only [guarded, post_bind, post_pure]
  refine (h.expression _ (yielding_only_mul rfl) ts (mem_guardeds_mul hts)).mono fun c r₁ h₁ => ?_
  refine (leaves_expect h₁ (by simp)).mono fun _ r₂ h₂ => ?_
  exact h.expression K hK r₂ h₂

theorem choice_completes (K : Language Lexeme) (hK : Yielding K) (ts : List Token)
    (hts : lexemes ts ∈ only (.keyword .if_) * (guardeds * (sentences .arms * K))) :
    (choice (fuel + 1) ts).Leaves K := by
  have hT := yielding_mul yielding_arms nil_mem_arms hK
  simp only [choice, lexemeAt_of_mem hts, post_bind, post_pure, post_advance, reduceCtorEq,
    if_false]
  refine (h.guarded _ hT _ (tail_mem hts)).mono fun case rest hr => ?_
  exact h.arms K hK rest hr

theorem arms_completes : Completes (arms (fuel + 1)) (sentences .arms) := by
  intro K hK ts hts
  simp only [arms, post_bind, post_peek]
  generalize hl : lexemeAt ts = l
  split
  next =>
    simp only [post_bind, post_pure, post_advance, hl, reduceCtorEq, if_false]
    rw [lexemes_eq_cons hl (by simp)] at hts
    -- The arm may have been one of an outer choice.
    have hw := hK.take (M := sentences .arms) rfl (fun v hv => ?_) nil_mem_arms hts
    · apply (h.guarded _ (yielding_mul yielding_arms nil_mem_arms hK) _ hw).mono
      intro case rest hr
      exact h.arms K hK rest hr
    · rcases cons_mem_arms hv with ⟨-, hv⟩ | ⟨hl, -⟩
      · exact hv
      · cases hl
  next =>
    simp only [post_bind, post_pure, post_advance, hl, reduceCtorEq, if_false]
    rw [lexemes_eq_cons hl (by simp)] at hts
    have hw := hK.take (M := 1) rfl (fun v hv => ?_) rfl hts
    · rw [one_mul] at hw
      exact h.expression K hK _ hw
    · rw [mul_one]
      rcases cons_mem_arms hv with ⟨hl, -⟩ | ⟨-, hv⟩
      · cases hl
      · exact hv
  next hel hes =>
    refine mem_of_front_not_mem hts fun v hv => ?_
    rw [headD_lexemes] at hv
    rcases cons_mem_arms hv with ⟨hv, -⟩ | ⟨hv, -⟩
    · exact hel (hl ▸ hv)
    · exact hes (hl ▸ hv)

theorem count_completes (K : Language Lexeme) (hK : Yielding K) (x : String) (ts : List Token)
    (hts : lexemes ts ∈ only (.keyword .for_) * (only (.identifier x) * (only .equal *
      (sentences .expression * (only (.keyword .to_) * (sentences .expression *
        (sentences .step * (only (.keyword .then_) * (sentences .expression * K))))))))) :
    (count (fuel + 1) ts).Leaves K := by
  simp only [count, lexemeAt_of_mem hts, post_bind, post_pure, post_advance, reduceCtorEq,
    if_false]
  refine (leaves_identifier (tail_mem hts)).mono fun _ r₁ h₁ => ?_
  refine (leaves_expect h₁ (by simp)).mono fun _ r₂ h₂ => ?_
  refine (h.expression _ (yielding_only_mul rfl) r₂ h₂).mono fun _ r₃ h₃ => ?_
  refine (leaves_expect h₃ (by simp)).mono fun _ r₄ h₄ => ?_
  refine (h.expression _ yielding_step r₄ h₄).mono fun _ r₅ h₅ => ?_
  refine (h.step _ r₅ h₅).mono fun _ r₆ h₆ => ?_
  refine (leaves_expect h₆ (by simp)).mono fun _ r₇ h₇ => ?_
  exact h.expression K hK r₇ h₇

theorem step_completes (K : Language Lexeme) (ts : List Token)
    (hts : lexemes ts ∈ sentences .step * (only (.keyword .then_) * K)) :
    (step (fuel + 1) ts).Leaves (only (.keyword .then_) * K) := by
  simp only [step, post_bind, post_peek]
  rcases mem_step_mul hts with hts | hts
  · simp only [lexemeAt_of_mem hts, post_pure]
    exact hts
  · simp only [lexemeAt_of_mem hts, post_bind, post_pure, post_advance, reduceCtorEq, if_false]
    exact h.expression _ (yielding_only_mul rfl) _ (tail_mem hts)

theorem loop_completes (K : Language Lexeme) (hK : Yielding K) (ts : List Token)
    (hts : lexemes ts ∈ only (.keyword .while_) * (guardeds * K)) :
    (loop (fuel + 1) ts).Leaves K := by
  simp only [loop, lexemeAt_of_mem hts, post_bind, post_pure, post_advance, reduceCtorEq, if_false]
  exact h.guarded K hK _ (tail_mem hts)

theorem signature_completes (K : Language Lexeme) (hK : Yielding K) (ps : List String)
    (ts : List Token) (hts : lexemes ts ∈ {parameterLexemes ps} *
      (only .closeParen * (only .arrow * (sentences .expression * K)))) :
    (signature (fuel + 1) ts).Leaves K := by
  simp only [signature, post_bind, post_pure]
  refine (parameters_complete ps hts).mono fun _ r₁ h₁ => ?_
  refine (leaves_expect h₁ (by simp)).mono fun _ r₂ h₂ => ?_
  exact h.expression K hK r₂ h₂

theorem function_completes (K : Language Lexeme) (hK : Yielding K) (x : Option String)
    (ps : List String) (ts : List Token) (hts : lexemes ts ∈ only (.keyword .fun_) *
      ({x.toList.map Lexeme.identifier} * (only .openParen * ({parameterLexemes ps} *
        (only .closeParen * (only .arrow * (sentences .expression * K))))))) :
    (function (fuel + 1) ts).Leaves K := by
  simp only [function, lexemeAt_of_mem hts, post_bind, post_peek, post_advance, reduceCtorEq,
    if_false]
  obtain ⟨_, rfl, z, hz, ht⟩ := tail_mem hts
  -- Behind a name the signature starts one token later.
  cases x with
  | none =>
    rw [show z = lexemes ts.tail from ht] at hz
    simp only [lexemeAt_of_mem hz, post_bind, post_pure]
    refine (leaves_expect hz (by simp)).mono fun _ r₁ h₁ => ?_
    exact h.signature K hK ps r₁ h₁
  | some name =>
    simp only [lexemeAt_of_lexemes ht.symm, post_bind, post_pure, post_advance, reduceCtorEq,
      if_false]
    rw [show z = lexemes ts.tail.tail from (lexemes_tail ht.symm).symm] at hz
    refine (leaves_expect hz (by simp)).mono fun _ r₁ h₁ => ?_
    exact h.signature K hK ps r₁ h₁

theorem atom_completes : Completes (atom (fuel + 1)) (sentences .atom) := by
  intro K hK ts hts
  obtain ⟨u, ⟨e, de⟩, z, hz, huz⟩ := hts
  replace huz : lexemes ts = u ++ z := huz.symm
  simp only [atom, post_bind, post_peek]
  cases de with
  | int | float | string | identifier =>
    simp only [lexemeAt_of_lexemes huz, post_bind, post_pure, post_advance, reduceCtorEq, if_false]
    rw [lexemes_tail huz]
    exact hz
  | group de =>
    simp only [lexemeAt_of_lexemes huz, post_bind, post_pure, post_advance, reduceCtorEq, if_false]
    have ht : lexemes ts.tail ∈ sentences .expression * (only .closeParen * K) := by
      rw [lexemes_tail huz]
      exact append_append_mem ⟨_, de⟩ rfl hz
    refine (h.expression _ (yielding_only_mul rfl) _ ht).mono fun e rest hr => ?_
    exact leaves_expect hr (by simp)
  | choice du dv =>
    simp only [lexemeAt_of_lexemes huz]
    apply h.choice K hK ts
    rw [huz]
    exact cons_mem_only_mul.2 (append_append_mem ⟨(_, _), du⟩ ⟨_, dv⟩ hz)
  | @count x _ _ _ _ _ _ _ _ du dv dw de =>
    simp only [lexemeAt_of_lexemes huz]
    apply h.count K hK x ts
    rw [huz]
    refine cons_mem_only_mul.2 (cons_mem_only_mul.2 (cons_mem_only_mul.2 ?_))
    -- The word is put together from its end.
    have hb := (cons_mem_only_mul (l := .keyword .then_)).2
      (Language.append_mem_mul (mem_sentences .expression de) hz)
    have hs := Language.append_mem_mul (mem_sentences .step dw) hb
    have hl := (cons_mem_only_mul (l := .keyword .to_)).2
      (Language.append_mem_mul (mem_sentences .expression dv) hs)
    refine ⟨_, mem_sentences .expression du, _, hl, ?_⟩
    simp only [List.append_eq, List.append_assoc, List.cons_append]
  | loop de =>
    simp only [lexemeAt_of_lexemes huz]
    apply h.loop K hK ts
    rw [huz]
    exact cons_mem_only_mul.2 (Language.append_mem_mul ⟨(_, _), de⟩ hz)
  | @function x ps _ _ de =>
    simp only [lexemeAt_of_lexemes huz]
    apply h.function K hK x ps ts
    rw [huz]
    apply cons_mem_only_mul.2
    refine ⟨_, rfl, _, cons_mem_only_mul.2 ⟨_, rfl, _, cons_mem_only_mul.2 (cons_mem_only_mul.2
      (Language.append_mem_mul (mem_sentences .expression de) hz)), rfl⟩, ?_⟩
    simp only [List.append_eq, List.append_assoc, List.cons_append]

end

theorem complete (fuel : Nat) : Complete fuel := by
  induction fuel with
  | zero => constructor <;> intros <;> first | trivial | (intro; intros; trivial)
  | succ fuel h =>
    exact {
      expression := expression_completes h
      binary := binary_completes h
      operand := operand_completes h
      chain := chain_completes h
      comparison := comparison_completes h
      relation := relation_completes h
      factor := factor_completes h
      power := power_completes h
      exponents := exponents_completes h
      call := call_completes h
      arguments := arguments_complete h
      moreArguments := moreArguments_complete h
      atom := atom_completes h
      guarded := guarded_completes h
      choice := choice_completes h
      arms := arms_completes h
      count := count_completes h
      step := step_completes h
      loop := loop_completes h
      function := function_completes h
      signature := signature_completes h }

end Minibasic.Parser

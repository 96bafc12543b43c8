import Minibasic.Proofs.Grammar
import Minibasic.Proofs.Parser.Outcome

/-!
What the parser reads, the grammar derives: a rule that succeeds has taken lexemes that derive from
its phrase, and the phrase stands for its result.
-/

namespace Minibasic

variable {α β : Type}

/-- The arms without their marks. -/
def Arms.erase (as : Arms α) : Arms Unit := as.map fun _ => ()

@[simp] theorem Expr.erase_assign (m : α) (x : String) (e : Expr α) :
    (Expr.assign m x e).erase = .assign () x e.erase := rfl

@[simp] theorem Expr.erase_unary (m : α) (op : UnaryOp) (e : Expr α) :
    (Expr.unary m op e).erase = .unary () op e.erase := rfl

@[simp] theorem Expr.erase_choose (m : α) (c b : Expr α) (as : Arms α) :
    (Expr.choose m c b as).erase = .choose () c.erase b.erase as.erase := rfl

@[simp] theorem Expr.erase_loop (m : α) (c b : Expr α) :
    (Expr.loop m c b).erase = .loop () c.erase b.erase := rfl

@[simp] theorem Expr.erase_function (m : α) (x : Option String) (ps : List String) (b : Expr α) :
    (Expr.function m x ps b).erase = .function () x ps b.erase := rfl

theorem Expr.mapAll_eq_map (f : α → β) (es : List (Expr α)) :
    Expr.mapAll f es = es.map (Expr.map f) := by
  induction es with
  | nil => rfl
  | cons e es ih => rw [Expr.mapAll, ih]; rfl

theorem Expr.mapStep_eq_map (f : α → β) (s : Option (Expr α)) :
    Expr.mapStep f s = s.map (Expr.map f) := by
  cases s <;> rfl

@[simp] theorem Expr.erase_call (m : α) (c : Expr α) (as : List (Expr α)) :
    (Expr.call m c as).erase = .call () c.erase (as.map Expr.erase) := by
  change Expr.call () c.erase (Expr.mapAll _ as) = _
  rw [Expr.mapAll_eq_map]
  rfl

@[simp] theorem Expr.erase_count (m : α) (x : String) (a b e : Expr α) (s : Option (Expr α)) :
    (Expr.count m x a b s e).erase =
      .count () x a.erase b.erase (s.map Expr.erase) e.erase := by
  change Expr.count () x a.erase b.erase (Expr.mapStep _ s) e.erase = _
  rw [Expr.mapStep_eq_map]
  rfl

@[simp] theorem Expr.erase_joined (op : BinaryOp) (l r : Expr Span) :
    (Parser.joined op l r).erase = .binary () op l.erase r.erase := rfl

namespace Parser

open Grammar

/-- The tokens before `rest` derive from the phrase. -/
def Reads (p : Phrase) (ts rest : List Token) : Prop :=
  ∃ w, Takes w ts rest ∧ Derives p w

/-- `F` holds of the result and of the tokens after it, if the rule succeeds. -/
abbrev Outcome.Gives (o : Outcome α) (F : α → List Token → Prop) : Prop :=
  o.Post F (fun _ _ => True) True

/-- What the rule reads derives from the phrase that stands for its result. -/
def Reading (r : Rule α) (p : α → Phrase) : Prop :=
  ∀ ts, (r ts).Gives fun a rest => Reads (p a) ts rest

theorem gives_expect {l : Lexeme} {e : Expectation} {ts : List Token}
    {F : Span → List Token → Prop} (hl : l ≠ .eof)
    (h : lexemeAt ts = l → F (spanAt ts) ts.tail) : (expect l e ts).Gives F := by
  simp only [post_expect, if_neg hl]
  split
  next hts => exact h hts
  next => trivial

theorem gives_identifier {e : Expectation} {ts : List Token} {F : String → List Token → Prop}
    (h : ∀ x, lexemeAt ts = .identifier x → F x ts.tail) : (identifier e ts).Gives F := by
  simp only [identifier, post_bind, post_peek]
  generalize hl : lexemeAt ts = l
  split
  next x => simpa [hl] using h x hl
  next => trivial

theorem op?_eq_some_iff {t : Tier} {l : Lexeme} {op : BinaryOp} :
    t.op? l = some op ↔ op ∈ operators t ∧ l = op.lexeme := by
  constructor
  · intro h
    unfold Tier.op? at h
    split at h <;> cases h <;> exact ⟨by decide, rfl⟩
  · intro hr
    obtain ⟨h, rfl⟩ := hr
    cases t <;> simp only [operators, List.mem_cons, List.not_mem_nil, or_false] at h <;>
      rcases h with rfl | rfl <;> rfl

theorem comparisonOp?_eq_some_iff {l : Lexeme} {op : BinaryOp} :
    comparisonOp? l = some op ↔ op ∈ comparisons ∧ l = op.lexeme := by
  constructor
  · intro h
    unfold comparisonOp? at h
    split at h <;> cases h <;> exact ⟨by decide, rfl⟩
  · intro hr
    obtain ⟨h, rfl⟩ := hr
    simp only [comparisons, List.mem_cons, List.not_mem_nil, or_false] at h
    rcases h with rfl | rfl | rfl | rfl | rfl | rfl <;> rfl

theorem sign?_eq_some_iff {l : Lexeme} {op : UnaryOp} :
    sign? l = some op ↔ op ∈ signs ∧ l = op.lexeme := by
  constructor
  · intro h
    unfold sign? at h
    split at h <;> cases h <;> exact ⟨by decide, rfl⟩
  · intro hr
    obtain ⟨h, rfl⟩ := hr
    simp only [signs, List.mem_cons, List.not_mem_nil, or_false] at h
    rcases h with rfl | rfl <;> rfl

theorem lexeme_ne_eof (op : BinaryOp) : op.lexeme ≠ .eof := by cases op <;> simp [BinaryOp.lexeme]

theorem sign_ne_eof (op : UnaryOp) : op.lexeme ≠ .eof := by cases op <;> simp [UnaryOp.lexeme]

theorem parameterLexemes_cons (p : String) (ps : List String) :
    parameterLexemes (p :: ps) =
      .identifier p :: ps.flatMap fun p => [.comma, .identifier p] := by
  induction ps generalizing p with
  | nil => rfl
  | cons q ps ih =>
    have hq := ih q
    simp only [parameterLexemes, List.map_cons, List.flatMap_cons] at hq ⊢
    rw [List.intersperse_cons_cons, hq]
    rfl

theorem parameters_take (ts : List Token) : (parameters ts).Gives fun ps rest =>
    Takes (parameterLexemes ps ++ [.closeParen]) ts rest := by
  simp only [parameters, post_bind, post_peek]
  generalize hl : lexemeAt ts = l
  split
  next name =>
    simp only [post_bind, post_pure, post_advance, hl, reduceCtorEq, if_false]
    refine (moreParameters_take _).imp (fun ps mid tp => ?_) (fun _ _ _ => trivial) fun _ => trivial
    refine gives_expect (by simp) fun hc => ?_
    rw [parameterLexemes_cons]
    exact .cons hl (by simp) (tp.append (.cons hc (by simp) .nil))
  next =>
    simp only [post_bind, post_pure]
    exact gives_expect (by simp) fun hc => .cons hc (by simp) .nil

/-- Every rule reads its phrase. -/
structure Sound (fuel : Nat) : Prop where
  expression : Reading (expression fuel) fun e => .expression e.erase
  binary : ∀ t ts, (binary fuel t ts).Gives fun e rest =>
    ∃ l ops mid, e.erase = folded l ops ∧ Reads (Grammar.operand t l) ts mid ∧
      Reads (.operations t ops) mid rest
  operand : ∀ t, Reading (operand fuel t) fun e => Grammar.operand t e.erase
  chain : ∀ t left ts, (chain fuel t left ts).Gives fun e rest =>
    ∃ ops, e.erase = folded left.erase ops ∧ Reads (.operations t ops) ts rest
  comparison : Reading (comparison fuel) fun e => .comparison e.erase
  relation : Reading (relation fuel) fun e => .comparison e.erase
  factor : Reading (factor fuel) fun e => .factor e.erase
  power : Reading (power fuel) fun e => .power e.erase
  exponents : ∀ base ts, (exponents fuel base ts).Gives fun e rest =>
    ∃ es, e.erase = raised base.erase es ∧ Reads (.exponents es) ts rest
  call : Reading (call fuel) fun e => .call e.erase
  arguments : Reading (arguments fuel) fun es => .arguments (es.map Expr.erase)
  moreArguments : Reading (moreArguments fuel) fun es => .moreArguments (es.map Expr.erase)
  atom : Reading (atom fuel) fun e => .atom e.erase
  guarded : Reading (guarded fuel) fun c => .guarded c.1.erase c.2.erase
  choice : ∀ ts, lexemeAt ts = .keyword .if_ →
    (choice fuel ts).Gives fun e rest => Reads (.atom e.erase) ts rest
  arms : Reading (arms fuel) fun as => .arms as.erase
  count : ∀ ts, lexemeAt ts = .keyword .for_ →
    (count fuel ts).Gives fun e rest => Reads (.atom e.erase) ts rest
  step : Reading (step fuel) fun s => .step (s.map Expr.erase)
  loop : ∀ ts, lexemeAt ts = .keyword .while_ →
    (loop fuel ts).Gives fun e rest => Reads (.atom e.erase) ts rest
  function : ∀ ts, lexemeAt ts = .keyword .fun_ →
    (function fuel ts).Gives fun e rest => Reads (.atom e.erase) ts rest
  signature : ∀ ts, (signature fuel ts).Gives fun s rest =>
    ∃ w, Takes (parameterLexemes s.1 ++ .closeParen :: .arrow :: w) ts rest ∧
      Derives (.expression s.2.erase) w

section

variable {fuel : Nat} (h : Sound fuel)
include h

theorem expression_reads : Reading (expression (fuel + 1)) fun e => .expression e.erase := by
  intro ts
  simp only [expression, post_bind, post_peek]
  generalize hl : lexemeAt ts = l
  split
  next =>
    simp only [post_bind, post_pure, post_advance, hl, reduceCtorEq, if_false]
    refine gives_identifier fun x hx => ?_
    refine gives_expect (by simp) fun heq => ?_
    apply (h.expression _).mono
    intro e rest hr
    obtain ⟨w, hw, de⟩ := hr
    exact ⟨_, .cons hl (by simp) (.cons hx (by simp) (.cons heq (by simp) hw)), .assign de⟩
  next =>
    simp only [post_orElse, ite_self]
    apply (h.binary .logical ts).mono
    intro e rest hr
    obtain ⟨l, ops, mid, he, ⟨u, tu, du⟩, v, tv, dv⟩ := hr
    exact ⟨_, tu.append tv, by simpa only [he] using .logical du dv⟩

theorem binary_reads (t : Tier) (ts : List Token) : (binary (fuel + 1) t ts).Gives fun e rest =>
    ∃ l ops mid, e.erase = folded l ops ∧ Reads (Grammar.operand t l) ts mid ∧
      Reads (.operations t ops) mid rest := by
  simp only [binary, post_bind]
  refine (h.operand t ts).mono fun left mid hl => ?_
  apply (h.chain t left mid).mono
  intro e rest hr
  obtain ⟨ops, he, ho⟩ := hr
  exact ⟨left.erase, ops, mid, he, hl, ho⟩

theorem operand_reads (t : Tier) :
    Reading (operand (fuel + 1) t) fun e => Grammar.operand t e.erase := by
  intro ts
  cases t with
  | logical => exact h.comparison ts
  | additive =>
    apply (h.binary .multiplicative ts).mono
    intro e rest hr
    obtain ⟨l, ops, mid, he, ⟨u, tu, du⟩, v, tv, dv⟩ := hr
    exact ⟨_, tu.append tv, by simpa only [he] using .product du dv⟩
  | multiplicative => exact h.factor ts

theorem chain_reads (t : Tier) (left : Node) (ts : List Token) :
    (chain (fuel + 1) t left ts).Gives fun e rest =>
      ∃ ops, e.erase = folded left.erase ops ∧ Reads (.operations t ops) ts rest := by
  simp only [chain, post_bind, post_peek]
  generalize ho : t.op? (lexemeAt ts) = o
  split
  next op =>
    obtain ⟨hop, hl⟩ := op?_eq_some_iff.mp ho
    have he : lexemeAt ts ≠ .eof := hl ▸ lexeme_ne_eof op
    simp only [post_bind, post_advance, he, if_false]
    apply (h.operand t _).mono
    intro right mid hr
    obtain ⟨u, tu, du⟩ := hr
    apply (h.chain t _ mid).mono
    intro e rest hr
    obtain ⟨ops, he, v, tv, dv⟩ := hr
    exact ⟨(op, right.erase) :: ops, he,
      _, .cons hl (lexeme_ne_eof op) (tu.append tv), .operation hop du dv⟩
  next => exact ⟨[], rfl, [], .nil, .noOperation⟩

theorem comparison_reads : Reading (comparison (fuel + 1)) fun e => .comparison e.erase := by
  intro ts
  simp only [comparison, post_bind, post_peek]
  generalize hl : lexemeAt ts = l
  split
  next =>
    simp only [post_bind, post_pure, post_advance, hl, reduceCtorEq, if_false]
    apply (h.comparison _).mono
    intro e rest hr
    obtain ⟨w, tw, de⟩ := hr
    exact ⟨_, .cons hl (by simp) tw, .not de⟩
  next =>
    simp only [post_orElse, ite_self]
    exact h.relation ts

theorem arithmetic_reads (ts : List Token) : (binary fuel .additive ts).Gives fun e rest =>
    Reads (.arithmetic e.erase) ts rest := by
  apply (h.binary .additive ts).mono
  intro e rest hr
  obtain ⟨l, ops, mid, he, ⟨u, tu, du⟩, v, tv, dv⟩ := hr
  exact ⟨_, tu.append tv, by simpa only [he] using .sum du dv⟩

theorem relation_reads : Reading (relation (fuel + 1)) fun e => .comparison e.erase := by
  intro ts
  simp only [relation, post_bind, post_peek]
  apply (arithmetic_reads h ts).mono
  intro left mid hr
  obtain ⟨u, tu, du⟩ := hr
  generalize ho : comparisonOp? (lexemeAt mid) = o
  split
  next op =>
    obtain ⟨hop, hl⟩ := comparisonOp?_eq_some_iff.mp ho
    have he : lexemeAt mid ≠ .eof := hl ▸ lexeme_ne_eof op
    simp only [post_bind, post_pure, post_advance, he, if_false]
    apply (arithmetic_reads h _).mono
    intro right rest hr
    obtain ⟨v, tv, dv⟩ := hr
    exact ⟨_, tu.append (.cons hl (lexeme_ne_eof op) tv), .relation du hop dv⟩
  -- Without an operator the sum is itself a comparison.
  next => exact ⟨u, tu, .arithmetic du⟩

theorem factor_reads : Reading (factor (fuel + 1)) fun e => .factor e.erase := by
  intro ts
  simp only [factor, post_bind, post_peek]
  generalize ho : sign? (lexemeAt ts) = o
  split
  next op =>
    obtain ⟨hop, hl⟩ := sign?_eq_some_iff.mp ho
    have he : lexemeAt ts ≠ .eof := hl ▸ sign_ne_eof op
    simp only [post_bind, post_pure, post_advance, he, if_false]
    apply (h.factor _).mono
    intro e rest hr
    obtain ⟨w, tw, de⟩ := hr
    exact ⟨_, .cons hl (sign_ne_eof op) tw, .sign hop de⟩
  next =>
    apply (h.power ts).mono
    intro e rest hr
    obtain ⟨w, tw, de⟩ := hr
    exact ⟨w, tw, .power de⟩

theorem power_reads : Reading (power (fuel + 1)) fun e => .power e.erase := by
  intro ts
  simp only [power, post_bind]
  apply (h.call ts).mono
  intro base mid hr
  obtain ⟨u, tu, du⟩ := hr
  apply (h.exponents base mid).mono
  intro e rest hr
  obtain ⟨es, he, v, tv, dv⟩ := hr
  exact ⟨_, tu.append tv, by simpa only [he] using .raise du dv⟩

theorem exponents_reads (base : Node) (ts : List Token) :
    (exponents (fuel + 1) base ts).Gives fun e rest =>
      ∃ es, e.erase = raised base.erase es ∧ Reads (.exponents es) ts rest := by
  simp only [exponents, post_bind, post_peek]
  generalize hl : lexemeAt ts = l
  split
  next =>
    simp only [post_bind, post_advance, hl, reduceCtorEq, if_false]
    apply (h.factor _).mono
    intro e mid hr
    obtain ⟨u, tu, du⟩ := hr
    apply (h.exponents _ mid).mono
    intro e' rest hr
    obtain ⟨es, he, v, tv, dv⟩ := hr
    exact ⟨e.erase :: es, he, _, .cons hl (by simp) (tu.append tv), .exponent du dv⟩
  next => exact ⟨[], rfl, [], .nil, .noExponent⟩

theorem call_reads : Reading (call (fuel + 1)) fun e => .call e.erase := by
  intro ts
  simp only [call, post_bind, post_peek]
  apply (h.atom ts).mono
  intro callee mid hr
  obtain ⟨u, tu, du⟩ := hr
  generalize hl : lexemeAt mid = l
  split
  next =>
    simp only [post_bind, post_pure, post_advance, hl, reduceCtorEq, if_false]
    apply (h.arguments _).mono
    intro as rest hr
    obtain ⟨v, tv, dv⟩ := hr
    refine gives_expect (by simp) fun hc => ?_
    rw [Expr.erase_call]
    exact ⟨_, tu.append (.cons hl (by simp) (tv.append (.cons hc (by simp) .nil))), .call du dv⟩
  next => exact ⟨u, tu, .callee du⟩

theorem arguments_reads :
    Reading (arguments (fuel + 1)) fun es => .arguments (es.map Expr.erase) := by
  intro ts
  simp only [arguments, post_bind, post_peek]
  generalize hl : lexemeAt ts = l
  split
  next => exact ⟨[], .nil, .noArgument⟩
  next =>
    simp only [post_bind, post_pure, post_orElse, ite_self]
    apply (h.expression ts).mono
    intro e mid hr
    obtain ⟨u, tu, du⟩ := hr
    apply (h.moreArguments mid).mono
    intro es rest hr
    obtain ⟨v, tv, dv⟩ := hr
    exact ⟨_, tu.append tv, .argument du dv⟩

theorem moreArguments_reads :
    Reading (moreArguments (fuel + 1)) fun es => .moreArguments (es.map Expr.erase) := by
  intro ts
  simp only [moreArguments, post_bind, post_peek]
  generalize hl : lexemeAt ts = l
  split
  next =>
    simp only [post_bind, post_pure, post_advance, hl, reduceCtorEq, if_false]
    apply (h.expression _).mono
    intro e mid hr
    obtain ⟨u, tu, du⟩ := hr
    apply (h.moreArguments mid).mono
    intro es rest hr
    obtain ⟨v, tv, dv⟩ := hr
    exact ⟨_, .cons hl (by simp) (tu.append tv), .more du dv⟩
  next => exact ⟨[], .nil, .noMore⟩

theorem atom_reads : Reading (atom (fuel + 1)) fun e => .atom e.erase := by
  intro ts
  simp only [atom, post_bind, post_peek]
  generalize hl : lexemeAt ts = l
  split
  case h_10 => trivial
  case h_2 => exact h.choice ts hl
  case h_3 => exact h.count ts hl
  case h_4 => exact h.loop ts hl
  case h_5 => exact h.function ts hl
  all_goals simp only [post_bind, post_pure, post_advance, hl, reduceCtorEq, if_false]
  case h_1 =>
    apply (h.expression _).mono
    intro e mid hr
    obtain ⟨w, tw, de⟩ := hr
    refine gives_expect (by simp) fun hc => ?_
    exact ⟨_, .cons hl (by simp) (tw.append (.cons hc (by simp) .nil)), .group de⟩
  case h_6 => exact ⟨_, .cons hl (by simp) .nil, .identifier⟩
  case h_7 => exact ⟨_, .cons hl (by simp) .nil, .string⟩
  case h_8 => exact ⟨_, .cons hl (by simp) .nil, .float⟩
  case h_9 => exact ⟨_, .cons hl (by simp) .nil, .int⟩

theorem guarded_reads :
    Reading (guarded (fuel + 1)) fun c => .guarded c.1.erase c.2.erase := by
  intro ts
  simp only [guarded, post_bind, post_pure]
  apply (h.expression ts).mono
  intro test mid hr
  obtain ⟨u, tu, du⟩ := hr
  refine gives_expect (by simp) fun ht => ?_
  apply (h.expression _).mono
  intro body rest hr
  obtain ⟨v, tv, dv⟩ := hr
  exact ⟨_, tu.append (.cons ht (by simp) tv), .guarded du dv⟩

theorem choice_reads (ts : List Token) (hl : lexemeAt ts = .keyword .if_) :
    (choice (fuel + 1) ts).Gives fun e rest => Reads (.atom e.erase) ts rest := by
  simp only [choice, post_bind, post_pure, post_advance, hl, reduceCtorEq, if_false]
  apply (h.guarded _).mono
  intro case mid hr
  obtain ⟨u, tu, du⟩ := hr
  apply (h.arms mid).mono
  intro as rest hr
  obtain ⟨v, tv, dv⟩ := hr
  exact ⟨_, .cons hl (by simp) (tu.append tv), .choice du dv⟩

theorem arms_reads : Reading (arms (fuel + 1)) fun as => .arms as.erase := by
  intro ts
  simp only [arms, post_bind, post_peek]
  generalize hl : lexemeAt ts = l
  split
  next =>
    simp only [post_bind, post_pure, post_advance, hl, reduceCtorEq, if_false]
    apply (h.guarded _).mono
    intro case mid hr
    obtain ⟨u, tu, du⟩ := hr
    apply (h.arms mid).mono
    intro as rest hr
    obtain ⟨v, tv, dv⟩ := hr
    exact ⟨_, .cons hl (by simp) (tu.append tv), .elif du dv⟩
  next =>
    simp only [post_bind, post_pure, post_advance, hl, reduceCtorEq, if_false]
    apply (h.expression _).mono
    intro body rest hr
    obtain ⟨w, tw, db⟩ := hr
    exact ⟨_, .cons hl (by simp) tw, .otherwise db⟩
  next => exact ⟨[], .nil, .noArm⟩

theorem count_reads (ts : List Token) (hl : lexemeAt ts = .keyword .for_) :
    (count (fuel + 1) ts).Gives fun e rest => Reads (.atom e.erase) ts rest := by
  simp only [count, post_bind, post_pure, post_advance, hl, reduceCtorEq, if_false]
  refine gives_identifier fun x hx => ?_
  refine gives_expect (by simp) fun heq => ?_
  apply (h.expression _).mono
  intro first r₁ hr
  obtain ⟨u, tu, du⟩ := hr
  refine gives_expect (by simp) fun hto => ?_
  apply (h.expression _).mono
  intro last r₂ hr
  obtain ⟨v, tv, dv⟩ := hr
  apply (h.step r₂).mono
  intro by_ r₃ hr
  obtain ⟨w, tw, dw⟩ := hr
  refine gives_expect (by simp) fun hthen => ?_
  apply (h.expression _).mono
  intro body rest hr
  obtain ⟨z, tz, dz⟩ := hr
  rw [Expr.erase_count]
  have taken := tu.append (.cons hto (by simp) (tv.append (tw.append (.cons hthen (by simp) tz))))
  exact ⟨_, .cons hl (by simp) (.cons hx (by simp) (.cons heq (by simp) taken)), .count du dv dw dz⟩

theorem step_reads : Reading (step (fuel + 1)) fun s => .step (s.map Expr.erase) := by
  intro ts
  simp only [step, post_bind, post_peek]
  generalize hl : lexemeAt ts = l
  split
  next =>
    simp only [post_bind, post_pure, post_advance, hl, reduceCtorEq, if_false]
    apply (h.expression _).mono
    intro e rest hr
    obtain ⟨w, tw, de⟩ := hr
    exact ⟨_, .cons hl (by simp) tw, .step de⟩
  next => exact ⟨[], .nil, .noStep⟩

theorem loop_reads (ts : List Token) (hl : lexemeAt ts = .keyword .while_) :
    (loop (fuel + 1) ts).Gives fun e rest => Reads (.atom e.erase) ts rest := by
  simp only [loop, post_bind, post_pure, post_advance, hl, reduceCtorEq, if_false]
  apply (h.guarded _).mono
  intro case rest hr
  obtain ⟨w, tw, dw⟩ := hr
  exact ⟨_, .cons hl (by simp) tw, .loop dw⟩

theorem function_reads (ts : List Token) (hl : lexemeAt ts = .keyword .fun_) :
    (function (fuel + 1) ts).Gives fun e rest => Reads (.atom e.erase) ts rest := by
  simp only [function, post_bind, post_peek, post_advance, hl, reduceCtorEq, if_false]
  generalize hn : lexemeAt ts.tail = n
  split
  next name =>
    simp only [post_bind, post_pure, post_advance, hn, reduceCtorEq, if_false]
    refine gives_expect (by simp) fun ho => ?_
    apply (h.signature _).mono
    intro s rest hr
    obtain ⟨w, tw, db⟩ := hr
    have taken := Takes.cons hl (by simp) (.cons hn (by simp) (.cons ho (by simp) tw))
    exact ⟨_, taken, .function (x := some name) db⟩
  next =>
    simp only [post_bind, post_pure]
    refine gives_expect (by simp) fun ho => ?_
    apply (h.signature _).mono
    intro s rest hr
    obtain ⟨w, tw, db⟩ := hr
    exact ⟨_, .cons hl (by simp) (.cons ho (by simp) tw), .function (x := none) db⟩

theorem signature_reads (ts : List Token) : (signature (fuel + 1) ts).Gives fun s rest =>
    ∃ w, Takes (parameterLexemes s.1 ++ .closeParen :: .arrow :: w) ts rest ∧
      Derives (.expression s.2.erase) w := by
  simp only [signature, post_bind, post_pure]
  refine (parameters_take ts).mono fun ps mid tp => ?_
  refine gives_expect (by simp) fun ha => ?_
  apply (h.expression _).mono
  intro body rest hr
  obtain ⟨w, tw, db⟩ := hr
  exact ⟨w, by simpa using tp.append (.cons ha (by simp) tw), db⟩

end

theorem sound (fuel : Nat) : Sound fuel := by
  induction fuel with
  | zero => constructor <;> intros <;> first | trivial | (intro; trivial)
  | succ fuel h =>
    exact {
      expression := expression_reads h
      binary := binary_reads h
      operand := operand_reads h
      chain := chain_reads h
      comparison := comparison_reads h
      relation := relation_reads h
      factor := factor_reads h
      power := power_reads h
      exponents := exponents_reads h
      call := call_reads h
      arguments := arguments_reads h
      moreArguments := moreArguments_reads h
      atom := atom_reads h
      guarded := guarded_reads h
      choice := choice_reads h
      arms := arms_reads h
      count := count_reads h
      step := step_reads h
      loop := loop_reads h
      function := function_reads h
      signature := signature_reads h }

end Parser

end Minibasic

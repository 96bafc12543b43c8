import Minibasic.Proofs.Grammar.Demands
import Minibasic.Proofs.Parser.FirstWrong

/-!
Which message a syntax error has. A rule that fails where it started leaves its message to the
outermost rule that started there, so that the message is the one for the operand that is due behind
the tokens read, however deep the rules are nested.
-/

namespace Minibasic

/-- The lexemes of the tokens in front of `rest` lead from one spot to the other. -/
def Spot.Leads (σ τ : Spot) (ts rest : List Token) : Prop :=
  ∃ u, Parser.Takes u ts rest ∧ σ.after? u = some τ

/-- The message is the one that asks for the operand that is due, or none is due and it asks for
something else. The lexeme that comes is not what it asks for. -/
structure Spot.Misses (σ : Spot) (e : Expectation) (l : Lexeme) : Prop where
  demand?_eq : σ.demand? = if e.isOperand then some e else none
  not_opens : e.opens l = false

theorem Spot.Misses.of_not_isOperand {σ : Spot} {e : Expectation} (hσ : σ.demand? = none)
    (he : e.isOperand = false) (l : Lexeme) : σ.Misses e l where
  demand?_eq := by simp [hσ, he]
  not_opens := Expectation.opens_eq_false he l

namespace Spot.Leads

variable {σ τ υ : Spot} {ts mid rest : List Token}

theorem refl (σ : Spot) (ts : List Token) : σ.Leads σ ts ts := ⟨[], .nil, rfl⟩

theorem trans (h : σ.Leads τ ts mid) (h' : τ.Leads υ mid rest) : σ.Leads υ ts rest := by
  obtain ⟨u, tu, hu⟩ := h
  obtain ⟨v, tv, hv⟩ := h'
  exact ⟨u ++ v, tu.append tv, by rw [after?_append, hu, Option.bind_some, hv]⟩

theorem length_le (h : σ.Leads τ ts rest) : rest.length ≤ ts.length := by
  obtain ⟨u, ⟨read, rfl, -⟩, -⟩ := h
  simp

end Spot.Leads

namespace Parser

open Grammar

variable {α β : Type} {σ τ υ : Spot} {M N e : Expectation} {l : Lexeme} {ts mid rest : List Token}
variable {bs : List Bracket}

/-- A success has led from `σ` to `τ`, a failure to a spot where its message is in place. -/
def Outcome.Tracks (o : Outcome α) (σ τ : Spot) (ts : List Token) : Prop :=
  o.Post (fun _ rest => σ.Leads τ ts rest)
    (fun e rest => ∃ υ, σ.Leads υ ts rest ∧ υ.Misses e (lexemeAt rest)) True

/-- The same of a rule with which an operand begins. It takes a token, and its message is `M` if it
fails before that. -/
def Outcome.Begins (o : Outcome α) (M : Expectation) (σ τ : Spot) (ts : List Token) : Prop :=
  o.Post (fun _ rest => rest.length < ts.length ∧ σ.Leads τ ts rest)
    (fun e rest => (rest = ts ∧ e = M ∧ M.opens (lexemeAt ts) = false) ∨
      rest.length < ts.length ∧ ∃ υ, σ.Leads υ ts rest ∧ υ.Misses e (lexemeAt rest)) True

section Combinators

variable {r : Rule α}

theorem Outcome.Tracks.trans {o : Outcome α} (h : σ.Leads τ ts mid) (ho : o.Tracks τ υ mid) :
    o.Tracks σ υ ts := by
  refine ho.imp (fun _ rest h' => h.trans h') (fun e rest h' => ?_) id
  obtain ⟨ρ, hρ, he⟩ := h'
  exact ⟨ρ, h.trans hρ, he⟩

/-- Where the message of the rule is the one that is due, it is in place. -/
theorem Outcome.Begins.tracks {o : Outcome α} (h : o.Begins M σ τ ts)
    (hσ : σ.demand? = if M.isOperand then some M else none) : o.Tracks σ τ ts := by
  refine h.imp (fun _ rest h' => h'.2) (fun e rest h' => ?_) id
  rcases h' with ⟨rfl, rfl, hl⟩ | ⟨-, h'⟩
  · exact ⟨σ, Spot.Leads.refl σ _, hσ, hl⟩
  · exact h'

theorem tracks_pure (a : α) (σ : Spot) (ts : List Token) : ((pure a : Rule α) ts).Tracks σ σ ts :=
  Spot.Leads.refl σ ts

theorem tracks_fail (h : σ.Misses e (lexemeAt ts)) :
    (Rule.fail (α := α) e ts).Tracks σ τ ts := ⟨σ, Spot.Leads.refl σ ts, h⟩

theorem tracks_bind {next : α → Rule β} (hr : (r ts).Tracks σ τ ts)
    (hn : ∀ a mid, (next a mid).Tracks τ υ mid) : ((r >>= next) ts).Tracks σ υ ts := by
  rw [Outcome.Tracks, post_bind]
  exact hr.mono fun a mid hmid => (hn a mid).trans hmid

/-- A result that is made of that of another rule. -/
theorem tracks_map {f : α → β} (hr : (r ts).Tracks σ τ ts) :
    ((r >>= fun a => pure (f a)) ts).Tracks σ τ ts :=
  tracks_bind hr fun a rest => tracks_pure (f a) τ rest

theorem tracks_peek {next : Lexeme → Rule α}
    (h : ∀ l, lexemeAt ts = l → (next l ts).Tracks σ τ ts) :
    ((peek >>= next) ts).Tracks σ τ ts := h _ rfl

theorem tracks_advance (hl : lexemeAt ts = l) (he : l ≠ .eof) (hσ : σ.next? l = some τ) :
    (advance ts).Tracks σ τ ts := by
  rw [Outcome.Tracks, post_advance, hl, if_neg he]
  exact ⟨[l], .cons hl he .nil, by simp [hσ]⟩

theorem tracks_expect (hl : l ≠ .eof) (hσ : σ.next? l = some τ) (hd : σ.demand? = none)
    (he : e.isOperand = false) (ts : List Token) : (expect l e ts).Tracks σ τ ts := by
  refine tracks_peek fun l' hl' => ?_
  split
  next h => exact tracks_advance (hl'.trans h) hl hσ
  next => exact tracks_fail (.of_not_isOperand hd he _)

theorem tracks_identifier (he : e.isOperand = false) (bs : List Bracket) (ts : List Token) :
    (identifier e ts).Tracks ⟨bs, .rest⟩ ⟨bs, .rest⟩ ts := by
  refine tracks_peek fun l hl => ?_
  split
  next name => exact tracks_map (tracks_advance hl (by simp) rfl)
  next => exact tracks_fail (.of_not_isOperand rfl he _)

theorem begins_bind {next : α → Rule β} (hr : (r ts).Begins M σ τ ts)
    (hn : ∀ a mid, (next a mid).Tracks τ υ mid) : ((r >>= next) ts).Begins M σ υ ts := by
  rw [Outcome.Begins, post_bind]
  refine hr.mono fun a mid hmid => ?_
  refine (hn a mid).imp (fun b rest hb => ?_) (fun e rest he => .inr ?_) id
  · exact ⟨hb.length_le.trans_lt hmid.1, hmid.2.trans hb⟩
  · obtain ⟨ρ, hρ, he⟩ := he
    exact ⟨hρ.length_le.trans_lt hmid.1, ρ, hmid.2.trans hρ, he⟩

theorem begins_map {f : α → β} (hr : (r ts).Begins M σ τ ts) :
    ((r >>= fun a => pure (f a)) ts).Begins M σ τ ts :=
  begins_bind hr fun a rest => tracks_pure (f a) τ rest

theorem begins_peek {next : Lexeme → Rule α}
    (h : ∀ l, lexemeAt ts = l → (next l ts).Begins M σ τ ts) :
    ((peek >>= next) ts).Begins M σ τ ts := h _ rfl

theorem begins_advance (hl : lexemeAt ts = l) (he : l ≠ .eof) (hσ : σ.next? l = some τ) :
    (advance ts).Begins M σ τ ts := by
  obtain ⟨s, rest, rfl⟩ := exists_cons_of_lexemeAt hl he
  rw [Outcome.Begins, post_advance, hl, if_neg he]
  exact ⟨Nat.lt_succ_self _, [l], .cons rfl he .nil, by simp [hσ]⟩

theorem begins_fail (hl : M.opens (lexemeAt ts) = false) :
    (Rule.fail (α := α) M ts).Begins M σ τ ts := .inl ⟨rfl, rfl, hl⟩

/-- The message of the outer rule takes the place of that of the inner one if no token was taken. -/
theorem begins_orElse (hr : (r ts).Begins M σ τ ts)
    (hMN : M.opens (lexemeAt ts) = false → N.opens (lexemeAt ts) = false) :
    (r.orElse N ts).Begins N σ τ ts := by
  rw [Outcome.Begins, post_orElse]
  refine hr.imp (fun _ _ h => h) (fun e rest h => ?_) id
  rcases h with ⟨rfl, rfl, hl⟩ | ⟨hlt, h⟩
  · rw [if_pos rfl]
    exact .inl ⟨rfl, rfl, hMN hl⟩
  · rw [if_neg hlt.ne]
    exact .inr ⟨hlt, h⟩

end Combinators

/-- The message of an operand of the tier. -/
def Tier.expectation : Tier → Expectation
  | logical => .operand
  | additive | multiplicative => .atom

/-- Where the next lexeme is as `p` says, the rule reads a phrase if an operand is due that can
start with all that `M` asks for. -/
def Rule.OpensAt (r : Rule α) (M : Expectation) (p : Lexeme → Prop) : Prop :=
  ∀ bs e ts, (∀ l, M.opens l → e.opens l) → p (lexemeAt ts) →
    (r ts).Begins M ⟨bs, .operand e⟩ ⟨bs, .rest⟩ ts

abbrev Rule.Opens (r : Rule α) (M : Expectation) : Prop := r.OpensAt M fun _ => True

/-- The rule reads on behind an operand. -/
def Rule.GoesOn (r : Rule α) : Prop :=
  ∀ bs ts, (r ts).Tracks ⟨bs, .rest⟩ ⟨bs, .rest⟩ ts

theorem Rule.Opens.tracks {r : Rule α} (h : r.Opens M) (hM : M.isOperand) (bs : List Bracket)
    (ts : List Token) : (r ts).Tracks ⟨bs, .operand M⟩ ⟨bs, .rest⟩ ts :=
  (h bs M ts (fun _ hl => hl) trivial).tracks (if_pos hM).symm

/-- The parameters in front of the closing parenthesis. -/
theorem tracks_moreParameters (bs : List Bracket) (ts : List Token) :
    (moreParameters ts).Tracks ⟨.parameters :: bs, .rest⟩ ⟨.parameters :: bs, .rest⟩ ts := by
  fun_induction moreParameters ts with
  | case1 s name s' ts ih =>
    rw [Outcome.Tracks, post_map]
    exact ih.trans ⟨[.comma, .identifier name], .cons rfl (by simp) (.cons rfl (by simp) .nil), rfl⟩
  | case2 s ts _ => exact ⟨_, ⟨[.comma], .cons rfl (by simp) .nil, rfl⟩, rfl, rfl⟩
  | case3 ts => exact .refl _ ts

theorem tracks_parameters (bs : List Bracket) (ts : List Token) :
    (parameters ts).Tracks ⟨.parameters :: bs, .rest⟩ ⟨bs, .rest⟩ ts := by
  refine tracks_peek fun l hl => ?_
  split
  next name =>
    refine tracks_bind (tracks_advance hl (by simp) rfl) fun _ _ => ?_
    refine tracks_bind (tracks_moreParameters bs _) fun _ _ => ?_
    exact tracks_map (tracks_expect (by simp) rfl rfl rfl _)
  next => exact tracks_map (tracks_expect (by simp) rfl rfl rfl ts)

theorem next?_operator {t : Tier} {op : BinaryOp} (bs : List Bracket) (hop : op ∈ operators t) :
    Spot.next? ⟨bs, .rest⟩ op.lexeme = some ⟨bs, .operand t.expectation⟩ := by
  cases t <;> simp only [operators, List.mem_cons, List.not_mem_nil, or_false] at hop <;>
    rcases hop with rfl | rfl <;> rfl

theorem next?_comparison {op : BinaryOp} (bs : List Bracket) (hop : op ∈ comparisons) :
    Spot.next? ⟨bs, .rest⟩ op.lexeme = some ⟨bs, .operand .atom⟩ := by
  simp only [comparisons, List.mem_cons, List.not_mem_nil, or_false] at hop
  rcases hop with rfl | rfl | rfl | rfl | rfl | rfl <;> rfl

theorem next?_sign {op : UnaryOp} (bs : List Bracket)
    (he : ∀ l, Expectation.atom.opens l → e.opens l) (hop : op ∈ signs) :
    Spot.next? ⟨bs, .operand e⟩ op.lexeme = some ⟨bs, .operand .atom⟩ := by
  simp only [signs, List.mem_cons, List.not_mem_nil, or_false] at hop
  rcases hop with rfl | rfl <;> exact Spot.next?_of_allows (he _ rfl)

/-- With this fuel every rule keeps its message in place. -/
structure Opening (fuel : Nat) : Prop where
  expression : (expression fuel).Opens .expression
  binary : ∀ t, (binary fuel t).Opens t.expectation
  operand : ∀ t, (operand fuel t).Opens t.expectation
  chain : ∀ t left, (chain fuel t left).GoesOn
  comparison : (comparison fuel).Opens .operand
  relation : (relation fuel).Opens .atom
  factor : (factor fuel).Opens .atom
  power : (power fuel).OpensAt .atom (sign? · = none)
  exponents : ∀ base, (exponents fuel base).GoesOn
  call : (call fuel).OpensAt .atom (sign? · = none)
  arguments : ∀ bs ts, (arguments fuel ts).Post
    (fun _ rest => (rest = ts ∧ lexemeAt ts = .closeParen) ∨
      Spot.Leads ⟨.arguments :: bs, .operand .argument⟩ ⟨.arguments :: bs, .rest⟩ ts rest)
    (fun e rest => ∃ υ, Spot.Leads ⟨.arguments :: bs, .operand .argument⟩ υ ts rest ∧
      υ.Misses e (lexemeAt rest)) True
  moreArguments : ∀ bs ts,
    (moreArguments fuel ts).Tracks ⟨.arguments :: bs, .rest⟩ ⟨.arguments :: bs, .rest⟩ ts
  atom : (atom fuel).OpensAt .atom (sign? · = none)
  guarded : ∀ bs ts, (guarded fuel ts).Tracks ⟨bs, .operand .expression⟩ ⟨bs, .rest⟩ ts
  choice : (choice fuel).OpensAt .atom (· = .keyword .if_)
  arms : (arms fuel).GoesOn
  count : (count fuel).OpensAt .atom (· = .keyword .for_)
  step : (step fuel).GoesOn
  loop : (loop fuel).OpensAt .atom (· = .keyword .while_)
  function : (function fuel).OpensAt .atom (· = .keyword .fun_)
  signature : ∀ bs ts, (signature fuel ts).Tracks ⟨.parameters :: bs, .rest⟩ ⟨bs, .rest⟩ ts

section

variable {fuel : Nat} (h : Opening fuel)
include h

theorem opens_expression : (expression (fuel + 1)).Opens .expression := by
  intro bs e ts hM _
  refine begins_peek fun l hl => ?_
  split
  · have hvar : Spot.next? ⟨bs, .operand e⟩ (.keyword .var) = some ⟨bs, .rest⟩ :=
      Spot.next?_of_allows (hM _ rfl)
    refine begins_bind (begins_advance hl (by simp) hvar) fun _ _ => ?_
    refine tracks_bind (tracks_identifier rfl bs _) fun _ _ => ?_
    refine tracks_bind (tracks_expect (by simp) rfl rfl rfl _) fun _ rest => ?_
    exact tracks_map (h.expression.tracks rfl bs rest)
  next hne =>
    have hwide (l : Lexeme) (hl : Expectation.operand.opens l) : e.opens l :=
      hM l (Expectation.expression_opens_of_operand hl)
    refine begins_orElse (h.binary .logical bs e ts hwide trivial) fun hno => ?_
    have hvar : lexemeAt ts ≠ .keyword .var := hl ▸ hne
    simpa [Expectation.opens, Tier.expectation, hvar] using hno

theorem opens_binary (t : Tier) : (binary (fuel + 1) t).Opens t.expectation :=
  fun bs e ts hM _ =>
    begins_bind (h.operand t bs e ts hM trivial) fun left rest => h.chain t left bs rest

theorem opens_operand (t : Tier) : (operand (fuel + 1) t).Opens t.expectation := by
  cases t with
  | logical => exact h.comparison
  | additive => exact h.binary .multiplicative
  | multiplicative => exact h.factor

theorem goesOn_chain (t : Tier) (left : Node) : (chain (fuel + 1) t left).GoesOn := by
  intro bs ts
  refine tracks_peek fun l hl => ?_
  cases ho : t.op? l with
  | some op =>
    obtain ⟨hop, rfl⟩ := op?_eq_some_iff.mp ho
    refine tracks_bind (tracks_advance hl (lexeme_ne_eof op) (next?_operator bs hop)) ?_
    intro _ mid
    refine tracks_bind ((h.operand t).tracks ?_ bs mid) fun right rest => h.chain t _ bs rest
    cases t <;> rfl
  | none => exact tracks_pure left _ ts

theorem opens_comparison : (comparison (fuel + 1)).Opens .operand := by
  intro bs e ts hM _
  refine begins_peek fun l hl => ?_
  split
  · have hnot : Spot.next? ⟨bs, .operand e⟩ (.keyword .not) = some ⟨bs, .operand .operand⟩ :=
      Spot.next?_of_allows (hM _ rfl)
    refine begins_bind (begins_advance hl (by simp) hnot) fun _ rest => ?_
    exact tracks_map (h.comparison.tracks rfl bs rest)
  next hne =>
    have hwide (l : Lexeme) (hl : Expectation.atom.opens l) : e.opens l :=
      hM l (Expectation.operand_opens_of_atom hl)
    refine begins_orElse (h.relation bs e ts hwide trivial) fun hno => ?_
    have hnot : lexemeAt ts ≠ .keyword .not := hl ▸ hne
    simpa [Expectation.opens, hnot] using hno

theorem opens_relation : (relation (fuel + 1)).Opens .atom := by
  intro bs e ts hM _
  refine begins_bind (h.binary .additive bs e ts hM trivial) fun left mid => ?_
  refine tracks_peek fun l hl => ?_
  cases ho : comparisonOp? l with
  | some op =>
    obtain ⟨hop, rfl⟩ := comparisonOp?_eq_some_iff.mp ho
    refine tracks_bind (tracks_advance hl (lexeme_ne_eof op) (next?_comparison bs hop)) ?_
    intro _ rest
    exact tracks_map ((h.binary .additive).tracks rfl bs rest)
  | none => exact tracks_pure left _ mid

theorem opens_factor : (factor (fuel + 1)).Opens .atom := by
  intro bs e ts hM _
  refine begins_peek fun l hl => ?_
  cases ho : sign? l with
  | some op =>
    obtain ⟨hop, rfl⟩ := sign?_eq_some_iff.mp ho
    refine begins_bind (begins_advance hl (sign_ne_eof op) (next?_sign bs hM hop)) fun _ rest => ?_
    exact tracks_map (h.factor.tracks rfl bs rest)
  | none => exact h.power bs e ts hM (hl ▸ ho)

theorem opens_power : (power (fuel + 1)).OpensAt .atom (sign? · = none) :=
  fun bs e ts hM hs =>
    begins_bind (h.call bs e ts hM hs) fun base rest => h.exponents base bs rest

theorem goesOn_exponents (base : Node) : (exponents (fuel + 1) base).GoesOn := by
  intro bs ts
  refine tracks_peek fun l hl => ?_
  split
  · refine tracks_bind (tracks_advance hl (by simp) rfl) fun _ mid => ?_
    exact tracks_bind (h.factor.tracks rfl bs mid) fun e rest => h.exponents _ bs rest
  · exact tracks_pure base _ ts

theorem opens_call : (call (fuel + 1)).OpensAt .atom (sign? · = none) := by
  intro bs e ts hM hs
  refine begins_bind (h.atom bs e ts hM hs) fun callee mid => ?_
  refine tracks_peek fun l hl => ?_
  split
  · refine tracks_bind (tracks_advance hl (by simp) rfl) fun _ mid => ?_
    rw [Outcome.Tracks, post_bind]
    refine (h.arguments bs mid).mono fun as rest has => ?_
    rcases has with ⟨rfl, hclose⟩ | has
    · -- Without arguments the closing parenthesis stands where one could start.
      refine tracks_map (tracks_peek fun l' hl' => ?_)
      rw [hclose] at hl'
      subst hl'
      exact tracks_advance hclose (by simp) rfl
    · refine Outcome.Tracks.trans has (tracks_map ?_)
      exact tracks_expect (by simp) rfl rfl rfl rest
  · exact tracks_pure callee _ mid

theorem opens_arguments (bs : List Bracket) (ts : List Token) : (arguments (fuel + 1) ts).Post
    (fun _ rest => (rest = ts ∧ lexemeAt ts = .closeParen) ∨
      Spot.Leads ⟨.arguments :: bs, .operand .argument⟩ ⟨.arguments :: bs, .rest⟩ ts rest)
    (fun e rest => ∃ υ, Spot.Leads ⟨.arguments :: bs, .operand .argument⟩ υ ts rest ∧
      υ.Misses e (lexemeAt rest)) True := by
  rw [arguments, post_bind, post_peek]
  generalize hl : lexemeAt ts = l
  split
  · exact .inl ⟨rfl, rfl⟩
  next hne =>
    have hfirst : ((expression fuel).orElse .argument ts).Begins .argument
        ⟨.arguments :: bs, .operand .argument⟩ ⟨.arguments :: bs, .rest⟩ ts := by
      have hwide (l : Lexeme) (hl : Expectation.expression.opens l) :
          Expectation.argument.opens l := Expectation.argument_opens_of_expression hl
      refine begins_orElse (h.expression _ _ ts hwide trivial) fun hno => ?_
      have hclose : lexemeAt ts ≠ .closeParen := hl ▸ hne
      simpa [Expectation.opens, hclose] using hno
    have hall := tracks_bind (hfirst.tracks rfl) fun first rest =>
      tracks_map (f := (first :: ·)) (h.moreArguments bs rest)
    exact Outcome.Post.mono hall fun _ _ => .inr

theorem tracks_moreArguments (bs : List Bracket) (ts : List Token) :
    (moreArguments (fuel + 1) ts).Tracks ⟨.arguments :: bs, .rest⟩ ⟨.arguments :: bs, .rest⟩
      ts := by
  refine tracks_peek fun l hl => ?_
  split
  · refine tracks_bind (tracks_advance hl (by simp) rfl) fun _ mid => ?_
    refine tracks_bind (h.expression.tracks rfl _ mid) fun _ rest => ?_
    exact tracks_map (h.moreArguments bs rest)
  · exact tracks_pure [] _ ts

theorem opens_atom : (atom (fuel + 1)).OpensAt .atom (sign? · = none) := by
  intro bs e ts hM hs
  refine begins_peek fun l hl => ?_
  let σ : Spot := ⟨bs, .operand e⟩
  have hopen (hl' : Expectation.atom.opens l) : σ.next? l = some (σ.behind l) :=
    Spot.next?_of_allows (hM l hl')
  split
  case h_1 =>
    refine begins_bind (begins_advance hl (by simp) (hopen rfl)) fun _ mid => ?_
    refine tracks_bind (h.expression.tracks rfl _ mid) fun _ rest => ?_
    exact tracks_map (tracks_expect (by simp) rfl rfl rfl rest)
  case h_2 => exact h.choice bs e ts hM hl
  case h_3 => exact h.count bs e ts hM hl
  case h_4 => exact h.loop bs e ts hM hl
  case h_5 => exact h.function bs e ts hM hl
  case h_10 hparen hif hfor hwhile hfun hname hstring hfloat hint =>
    have hsign : sign? l = none := hl ▸ hs
    refine begins_fail ?_
    rw [hl, Expectation.opens_atom]
    -- What could start an operand is a sign or has been dealt with.
    cases l with
    | int n => exact absurd rfl (hint n)
    | float x => exact absurd rfl (hfloat x)
    | string s => exact absurd rfl (hstring s)
    | identifier name => exact absurd rfl (hname name)
    | plus | minus => cases hsign
    | openParen => exact absurd rfl hparen
    | keyword k =>
      cases k with
      | if_ => exact absurd rfl hif
      | for_ => exact absurd rfl hfor
      | while_ => exact absurd rfl hwhile
      | fun_ => exact absurd rfl hfun
      | _ => rfl
    | _ => rfl
  -- A literal or a name is an operand of its own.
  all_goals exact begins_map (begins_advance hl (by simp) (hopen rfl))

theorem tracks_guarded (bs : List Bracket) (ts : List Token) :
    (guarded (fuel + 1) ts).Tracks ⟨bs, .operand .expression⟩ ⟨bs, .rest⟩ ts := by
  refine tracks_bind (h.expression.tracks rfl bs ts) fun _ mid => ?_
  refine tracks_bind (tracks_expect (by simp) rfl rfl rfl mid) fun _ rest => ?_
  exact tracks_map (h.expression.tracks rfl bs rest)

theorem opens_choice : (choice (fuel + 1)).OpensAt .atom (· = .keyword .if_) := by
  intro bs e ts hM hl
  refine begins_bind (begins_advance hl (by simp) (Spot.next?_of_allows (hM _ rfl))) fun _ mid => ?_
  refine tracks_bind (h.guarded bs mid) fun _ rest => ?_
  exact tracks_map (h.arms bs rest)

theorem goesOn_arms : (arms (fuel + 1)).GoesOn := by
  intro bs ts
  refine tracks_peek fun l hl => ?_
  split
  · refine tracks_bind (tracks_advance hl (by simp) rfl) fun _ mid => ?_
    refine tracks_bind (h.guarded bs mid) fun _ rest => ?_
    exact tracks_map (h.arms bs rest)
  · refine tracks_bind (tracks_advance hl (by simp) rfl) fun _ rest => ?_
    exact tracks_map (h.expression.tracks rfl bs rest)
  · exact tracks_pure _ _ ts

theorem opens_count : (count (fuel + 1)).OpensAt .atom (· = .keyword .for_) := by
  intro bs e ts hM hl
  have hfor : Spot.next? ⟨bs, .operand e⟩ (.keyword .for_) = some ⟨bs, .rest⟩ :=
    Spot.next?_of_allows (hM _ rfl)
  refine begins_bind (begins_advance hl (by simp) hfor) fun _ r₁ => ?_
  refine tracks_bind (tracks_identifier rfl bs r₁) fun _ r₂ => ?_
  refine tracks_bind (tracks_expect (by simp) rfl rfl rfl r₂) fun _ r₃ => ?_
  refine tracks_bind (h.expression.tracks rfl bs r₃) fun _ r₄ => ?_
  refine tracks_bind (tracks_expect (by simp) rfl rfl rfl r₄) fun _ r₅ => ?_
  refine tracks_bind (h.expression.tracks rfl bs r₅) fun _ r₆ => ?_
  refine tracks_bind (h.step bs r₆) fun _ r₇ => ?_
  refine tracks_bind (tracks_expect (by simp) rfl rfl rfl r₇) fun _ r₈ => ?_
  exact tracks_map (h.expression.tracks rfl bs r₈)

theorem goesOn_step : (step (fuel + 1)).GoesOn := by
  intro bs ts
  refine tracks_peek fun l hl => ?_
  split
  · refine tracks_bind (tracks_advance hl (by simp) rfl) fun _ rest => ?_
    exact tracks_map (h.expression.tracks rfl bs rest)
  · exact tracks_pure none _ ts

theorem opens_loop : (loop (fuel + 1)).OpensAt .atom (· = .keyword .while_) := by
  intro bs e ts hM hl
  have hwhile : Spot.next? ⟨bs, .operand e⟩ (.keyword .while_) = some ⟨bs, .operand .expression⟩ :=
    Spot.next?_of_allows (hM _ rfl)
  refine begins_bind (begins_advance hl (by simp) hwhile) fun _ rest => ?_
  exact tracks_map (h.guarded bs rest)

theorem opens_function : (function (fuel + 1)).OpensAt .atom (· = .keyword .fun_) := by
  intro bs e ts hM hl
  refine begins_bind (begins_advance hl (by simp) (Spot.next?_of_allows (hM _ rfl))) fun _ r₁ => ?_
  refine tracks_peek fun l hn => ?_
  split
  next name =>
    refine tracks_bind (tracks_advance hn (by simp) rfl) fun _ r₂ => ?_
    refine tracks_bind (tracks_expect (by simp) rfl rfl rfl r₂) fun _ r₃ => ?_
    exact tracks_map (h.signature bs r₃)
  next =>
    refine tracks_bind (tracks_expect (by simp) rfl rfl rfl r₁) fun _ r₂ => ?_
    exact tracks_map (h.signature bs r₂)

theorem tracks_signature (bs : List Bracket) (ts : List Token) :
    (signature (fuel + 1) ts).Tracks ⟨.parameters :: bs, .rest⟩ ⟨bs, .rest⟩ ts := by
  refine tracks_bind (tracks_parameters bs ts) fun _ mid => ?_
  refine tracks_bind (tracks_expect (by simp) rfl rfl rfl mid) fun _ rest => ?_
  exact tracks_map (h.expression.tracks rfl bs rest)

end

theorem opening (fuel : Nat) : Opening fuel := by
  induction fuel with
  | zero =>
    constructor <;> intros <;>
      first | trivial | exact fun _ _ => trivial | exact fun _ _ _ _ _ => trivial
  | succ fuel h =>
    exact {
      expression := opens_expression h
      binary := opens_binary h
      operand := opens_operand h
      chain := goesOn_chain h
      comparison := opens_comparison h
      relation := opens_relation h
      factor := opens_factor h
      power := opens_power h
      exponents := goesOn_exponents h
      call := opens_call h
      arguments := opens_arguments h
      moreArguments := tracks_moreArguments h
      atom := opens_atom h
      guarded := tracks_guarded h
      choice := opens_choice h
      arms := goesOn_arms h
      count := opens_count h
      step := goesOn_step h
      loop := opens_loop h
      function := opens_function h
      signature := tracks_signature h }

theorem tracks_program (fuel : Nat) (ts : List Token) :
    (program fuel ts).Tracks Spot.start ⟨[], .rest⟩ ts := by
  refine tracks_bind ((opening fuel).expression.tracks rfl [] ts) fun e rest => ?_
  refine tracks_peek fun l _ => ?_
  split
  · exact tracks_pure e _ rest
  · exact tracks_fail ⟨rfl, rfl⟩

/-- What was read when the parser fails leads to a spot where its message is in place. -/
theorem misses_of_failed {fuel : Nat} {read : List Token}
    (h : program fuel (read ++ rest) = .failed e rest) :
    ∃ σ, Spot.start.after? (lexemes read) = some σ ∧ σ.Misses e (lexemeAt rest) := by
  have ht := tracks_program fuel (read ++ rest)
  rw [h] at ht
  obtain ⟨σ, ⟨_, ⟨read', heq, rfl⟩, hσ⟩, he⟩ := ht
  obtain rfl := List.append_cancel_right heq
  exact ⟨σ, hσ, he⟩

/-- The beginnings of expressions lead from spot to spot. -/
theorem exists_after?_of_begins {w : List Lexeme}
    (hw : w ∈ beginnings (sentences .expression)) : ∃ σ, Spot.start.after? w = some σ := by
  obtain ⟨z, hz⟩ := hw
  let ts : List Token := (w ++ z).map (⟨·, default⟩)
  have hts : lexemes ts = w ++ z := by simp [ts, lexemes, Function.comp_def]
  let stop : Token := ⟨.eof, default⟩
  have hmem : lexemes (ts ++ [stop]) ∈ sentences .expression * only .eof :=
    ⟨w ++ z, hz, [.eof], rfl, by rw [← hts]; simp [lexemes, stop]⟩
  obtain ⟨e, he⟩ := parse_ok_of_mem _ hmem
  obtain ⟨rest, hp⟩ := program_of_parse_ok he
  have ht := tracks_program (enoughFuel (ts ++ [stop])) (ts ++ [stop])
  have hg := program_gives (enoughFuel (ts ++ [stop])) (ts ++ [stop])
  rw [hp] at ht hg
  obtain ⟨_, ⟨read, heq, rfl⟩, hread⟩ := ht
  -- The parser stops at an end token, so it has come past the whole word.
  have hpre : ts <+: read := by
    rcases List.append_eq_append_iff.mp heq with ⟨cs, hcs, -⟩ | ⟨as, has, hrest⟩
    · exact ⟨cs, hcs.symm⟩
    · cases as with
      | nil => exact ⟨[], by rw [has, List.append_nil, List.append_nil]⟩
      | cons a as =>
        have ha : a.lexeme = .eof := by
          have hl := hg.2
          rwa [hrest] at hl
        have hmem : Lexeme.eof ∈ lexemes ts := by simp [has, lexemes, ha]
        rw [hts] at hmem
        obtain ⟨e', hd⟩ := hz
        exact absurd hmem (eof_not_mem_of_derives hd)
  obtain ⟨v, rfl⟩ := hpre
  have hw : (ts ++ v).map Token.lexeme = w ++ (z ++ lexemes v) := by
    rw [List.map_append, ← List.append_assoc, ← hts]
    rfl
  rw [hw, Spot.after?_append] at hread
  obtain ⟨σ, hσ, -⟩ := Option.bind_eq_some_iff.mp hread
  exact ⟨σ, hσ⟩

/-- Only lexemes that the message asks for can stand where an operand is due. -/
theorem opens_of_begins {w : List Lexeme} (hw : w ++ [l] ∈ beginnings (sentences .expression))
    (hd : demand? w = some e) : e.opens l := by
  obtain ⟨τ, hτ⟩ := exists_after?_of_begins hw
  obtain ⟨σ, hσ, he⟩ := Option.bind_eq_some_iff.mp hd
  rw [Spot.after?_append, hσ, Option.bind_some, Spot.after?_cons] at hτ
  obtain ⟨υ, hυ, -⟩ := Option.bind_eq_some_iff.mp hτ
  exact Spot.opens_of_next? he hυ

/-- A number can only stand where an operand is due. -/
theorem demand?_of_begins {w : List Lexeme} {n : Int64}
    (hw : w ++ [.int n] ∈ beginnings (sentences .expression)) : ∃ e, demand? w = some e := by
  obtain ⟨τ, hτ⟩ := exists_after?_of_begins hw
  rw [Spot.after?_append] at hτ
  obtain ⟨σ, hσ, hn⟩ := Option.bind_eq_some_iff.mp hτ
  obtain ⟨υ, hυ, -⟩ := Option.bind_eq_some_iff.mp hn
  obtain ⟨e, he⟩ := Spot.demand?_of_next?_int hυ
  exact ⟨e, by rw [demand?, hσ, Option.bind_some, he]⟩

/-- Where an operand is due, the parser does not fail at a number: it would ask for it there. -/
theorem not_failed_of_demand? {fuel : Nat} {read : List Token} {t : Token} {n : Int64}
    {e' : Expectation} (hd : demand? (lexemes read) = some e) (ht : t.lexeme = .int n) :
    program fuel (read ++ t :: rest) ≠ .failed e' (t :: rest) := by
  intro hfail
  obtain ⟨σ, hσ, hm⟩ := misses_of_failed hfail
  rw [show lexemeAt (t :: rest) = .int n from ht] at hm
  rw [demand?, hσ, Option.bind_some, hm.demand?_eq, Option.ite_none_right_eq_some] at hd
  have hopens : e'.opens (.int n) := Expectation.opens_int hd.1 n
  have hclosed : e'.opens (.int n) = false := hm.not_opens
  rw [hopens] at hclosed
  cases hclosed

/-- A number can stand where an operand is due. -/
theorem begins_of_demand? {w : List Lexeme} (hw : w ∈ beginnings (sentences .expression))
    (hd : demand? w = some e) (n : Int64) :
    w ++ [.int n] ∈ beginnings (sentences .expression) := by
  let ts : List Token := w.map (⟨·, default⟩)
  have hts : lexemes ts = w := by simp [ts, lexemes, Function.comp_def]
  let number : Token := ⟨.int n, default⟩
  let stop : Token := ⟨.eof, default⟩
  have hall : lexemes (ts ++ [number]) = w ++ [.int n] := by simp [lexemes, ← hts, number]
  rw [← hall]
  cases hp : parse (ts ++ [number] ++ [stop]) with
  | ok e =>
    obtain ⟨rest, hr, hrest⟩ := reads_of_parse_ok hp
    have hno : ∀ t ∈ ts ++ [number], t.lexeme ≠ .eof := by
      intro t ht he
      have hmem : t.lexeme ∈ lexemes (ts ++ [number]) := List.mem_map_of_mem ht
      rw [hall, he] at hmem
      simp [eof_not_mem_of_begins hw] at hmem
    exact ⟨[], e.erase, by simpa using derives_of_reads hno rfl hr hrest⟩
  | error d =>
    obtain ⟨e', rest, hfail, rfl⟩ := failed_of_parse_error hp
    obtain ⟨read, us, heq, rfl, hb⟩ := exists_read_of_failed rfl hfail
    rw [heq, List.append_assoc] at hfail
    rcases List.eq_nil_or_concat us with rfl | ⟨us, t, rfl⟩
    · rwa [heq, List.append_nil]
    rw [List.concat_eq_append, ← List.append_assoc] at heq
    obtain ⟨hread, ht⟩ := List.append_inj' heq rfl
    cases us with
    | nil =>
      -- The parser has come to the number.
      obtain rfl : number = t := (List.cons.inj ht).1
      rw [List.append_nil] at hread
      exact absurd hfail (not_failed_of_demand? (by rwa [← hread, hts]) rfl)
    | cons a us =>
      -- The parser has not come past the word, but it can be completed.
      refine absurd ?_ (not_begins_of_failed hfail)
      obtain ⟨z, hz⟩ := hw
      refine ⟨lexemes us ++ z, ?_⟩
      have hsplit : w = lexemes (read ++ [a]) ++ lexemes us := by
        rw [← hts, hread]
        simp [lexemes]
      rwa [← List.append_assoc, ← hsplit]

/-- Behind the lexemes an operand has to start: a number can stand there. -/
def OperandDue (w : List Lexeme) : Prop :=
  ∃ n : Int64, w ++ [.int n] ∈ beginnings (sentences .expression)

theorem operandDue_iff {w : List Lexeme} (hw : w ∈ beginnings (sentences .expression)) :
    OperandDue w ↔ ∃ e, demand? w = some e := by
  constructor
  · intro h
    obtain ⟨n, hn⟩ := h
    exact demand?_of_begins hn
  · intro h
    obtain ⟨e, he⟩ := h
    exact ⟨0, begins_of_demand? hw he 0⟩

/-- The message of a syntax error goes by the place. Where an operand has to start, it is the one
that the lexeme in front asks for, and the token to blame is not what it asks for; that lexeme tells
alone, apart from what a parenthesis opens and a comma stands in. Elsewhere the message asks for
something else. -/
theorem parse_error_asks {ts : List Token} {stop : Token} (hstop : stop.lexeme = .eof)
    {d : Diagnostic} (h : parse (ts ++ [stop]) = .error d) :
    ∃ read t rest, ts ++ [stop] = read ++ t :: rest ∧
      (OperandDue (lexemes read) → ∃ e, demand? (lexemes read) = some e ∧
        d = missing e (t :: rest) ∧ e.opens t.lexeme = false) ∧
      (¬ OperandDue (lexemes read) → ∃ e, e.isOperand = false ∧ d = missing e (t :: rest)) ∧
      (read = [] → demand? (lexemes read) = some .expression) ∧
      ∀ w l, lexemes read = w ++ [l] →
        ∃ σ, Spot.start.after? w = some σ ∧ demand? (lexemes read) = σ.asks? l := by
  obtain ⟨e, rest, hfail, rfl⟩ := failed_of_parse_error h
  obtain ⟨read, us, rfl, rfl, hb⟩ := exists_read_of_failed hstop hfail
  rw [List.append_assoc] at hfail
  obtain ⟨σ, hσ, hm⟩ := misses_of_failed hfail
  have hd : demand? (lexemes read) = if e.isOperand then some e else none := by
    rw [demand?, hσ, Option.bind_some, hm.demand?_eq]
  obtain ⟨t, rest, hus⟩ := List.exists_cons_of_ne_nil (List.append_ne_nil_of_right_ne_nil us
    (List.cons_ne_nil stop []))
  rw [hus] at hm ⊢
  refine ⟨read, t, rest, by rw [List.append_assoc, hus], fun hdue => ?_, fun hdue => ?_, ?_, ?_⟩
  · obtain ⟨e', he'⟩ := (operandDue_iff hb).mp hdue
    have hee' := (Option.ite_none_right_eq_some.mp (hd.symm.trans he')).2
    obtain rfl := Option.some.inj hee'
    exact ⟨e, he', rfl, hm.not_opens⟩
  · refine ⟨e, ?_, rfl⟩
    refine Bool.eq_false_iff.mpr fun hop => hdue ((operandDue_iff hb).mpr ⟨e, ?_⟩)
    rw [hd, if_pos hop]
  · rintro rfl
    rfl
  · intro w l hread
    rw [hread] at hσ ⊢
    exact demand?_concat hσ

/-- In `f(1,)` an expression is missing behind the comma, although the parser looks for an argument
in a sum in a comparison there. -/
theorem parse_error_asks_argument :
    let ts : List Token := [.identifier "f", .openParen, .int 1, .comma, .closeParen].map
      (⟨·, default⟩)
    let stop : Token := ⟨.eof, default⟩
    stop.lexeme = .eof ∧ ∃ d, parse (ts ++ [stop]) = .error d ∧
      d.cause = .invalidSyntax Expectation.expression.text ∧
      ∃ read t rest, ts ++ [stop] = read ++ t :: rest ∧ (OperandDue (lexemes read) →
        ∃ e, demand? (lexemes read) = some e ∧ d = missing e (t :: rest)) := by
  intro ts stop
  have hcause : (match parse (ts ++ [stop]) with
      | .ok _ => none
      | .error d => some d.cause) = some (.invalidSyntax Expectation.expression.text) := by
    decide +kernel
  cases hd : parse (ts ++ [stop]) with
  | ok e =>
    rw [hd] at hcause
    cases hcause
  | error d =>
    rw [hd] at hcause
    obtain ⟨read, t, rest, hts, hdue, -⟩ := parse_error_asks rfl hd
    refine ⟨rfl, d, rfl, Option.some.inj hcause, read, t, rest, hts, fun h => ?_⟩
    obtain ⟨e, he, hmissing, -⟩ := hdue h
    exact ⟨e, he, hmissing⟩

end Parser

end Minibasic

import Minibasic.Proofs.Grammar.Writing
import Minibasic.Proofs.Parser.Completeness

/-!
What is written, the parser reads back as the same tree. The rule of a level reads a tree in a place
of that level and stops behind it, as long as the next lexeme leaves phrases of that level whole.
-/

namespace Minibasic.Parser

open Grammar

variable {α : Type} {fuel : Nat} {ts rest : List Token} {e : Tree} {t : Tier}

/-- The rule has a result with the property and leaves the tokens `rest`, unless its fuel is used
up. -/
abbrev Outcome.Yields (o : Outcome α) (P : α → Prop) (rest : List Token) : Prop :=
  o.Post (fun a rest' => P a ∧ rest' = rest) (fun _ _ => False) True

/-- What comes after the rule, comes after its result and before the tokens that it leaves. -/
theorem Outcome.Yields.elim {o : Outcome α} {P : α → Prop} {F : α → List Token → Prop}
    (h : o.Yields P rest) (hF : ∀ a, P a → F a rest) : o.Post F (fun _ _ => False) True := by
  apply h.mono
  intro a rest' ha
  obtain ⟨ha, rfl⟩ := ha
  exact hF a ha

/-- The result is the tree with marks. -/
abbrev Outcome.Returns (o : Outcome Node) (e : Tree) (rest : List Token) : Prop :=
  o.Yields (fun e' => e'.erase = e) rest

/-- The rule for phrases of the level. What is closed stands between parentheses, where any
expression may. -/
def reader : Level → Nat → Rule Node
  | .closed | .expression => expression
  | .logical => fun fuel => binary fuel .logical
  | .comparison => comparison
  | .additive => fun fuel => binary fuel .additive
  | .multiplicative => fun fuel => binary fuel .multiplicative
  | .factor => factor
  | .power => power
  | .call => call
  | .atom => atom

/-- The level of the operations of a tier. -/
def Tier.level : Tier → Level
  | .logical => .logical
  | .additive => .additive
  | .multiplicative => .multiplicative

/-- The level of the operands of a tier. -/
def Tier.inner : Tier → Level
  | .logical => .comparison
  | .additive => .multiplicative
  | .multiplicative => .factor

theorem rank_inner (t : Tier) : t.inner.rank = t.level.rank + 1 := by
  cases t <;> rfl

theorem reader_level (t : Tier) (fuel : Nat) : reader t.level fuel = binary fuel t := by
  cases t <;> rfl

theorem operand_succ (t : Tier) (fuel : Nat) : operand (fuel + 1) t = reader t.inner fuel := by
  cases t <;> rfl

theorem operators_level {op : BinaryOp} (h : op ∈ operators t) :
    op.level = t.level ∧ op.left = t.level ∧ op.right = t.inner := by
  cases t <;> simp only [operators, List.mem_cons, List.not_mem_nil, or_false] at h <;>
    rcases h with rfl | rfl <;> exact ⟨rfl, rfl, rfl⟩

theorem comparisons_level {op : BinaryOp} (h : op ∈ comparisons) :
    op.level = .comparison ∧ op.left = .additive ∧ op.right = .additive := by
  simp only [comparisons, List.mem_cons, List.not_mem_nil, or_false] at h
  rcases h with rfl | rfl | rfl | rfl | rfl | rfl <;> exact ⟨rfl, rfl, rfl⟩

/-- An operator may stand behind an operand of its tier, but not behind an operation of it. -/
theorem rank_ending_operator {op : BinaryOp} (h : op ∈ operators t) :
    (ending op.lexeme).rank = t.inner.rank := by
  cases t <;> simp only [operators, List.mem_cons, List.not_mem_nil, or_false] at h <;>
    rcases h with rfl | rfl <;> rfl

theorem rank_ending_comparison {op : BinaryOp} (h : op ∈ comparisons) :
    (ending op.lexeme).rank = Level.additive.rank := by
  simp only [comparisons, List.mem_cons, List.not_mem_nil, or_false] at h
  rcases h with rfl | rfl | rfl | rfl | rfl | rfl <;> rfl

section Stopping

variable {F : Node → List Token → Prop} {left : Node}

theorem chain_stops (hr : (ending (lexemeAt rest)).rank ≤ t.level.rank) (hF : F left rest) :
    (chain fuel t left rest).Post F (fun _ _ => False) True := by
  cases fuel with
  | zero => trivial
  | succ fuel =>
    simp only [chain, post_bind, post_peek]
    cases ho : t.op? (lexemeAt rest) with
    | none => exact hF
    | some op =>
      obtain ⟨hop, hl⟩ := op?_eq_some_iff.mp ho
      -- An operator of the tier does not leave operations of the tier whole.
      rw [hl, rank_ending_operator hop, rank_inner] at hr
      omega

theorem exponents_stop (hr : (ending (lexemeAt rest)).rank ≤ Level.power.rank)
    (hF : F left rest) : (exponents fuel left rest).Post F (fun _ _ => False) True := by
  cases fuel with
  | zero => trivial
  | succ fuel =>
    simp only [exponents, post_bind, post_peek]
    generalize hl : lexemeAt rest = l at hr
    split
    next => exact absurd hr (by decide)
    next => exact hF

end Stopping

theorem binary_returns (t : Tier) (hr : (ending (lexemeAt rest)).rank ≤ t.level.rank)
    (h : ∀ fuel, (reader t.inner fuel ts).Returns e rest) :
    (binary (fuel + 1) t ts).Returns e rest := by
  simp only [binary, post_bind]
  cases fuel with
  | zero => trivial
  | succ fuel =>
    rw [operand_succ]
    refine (h fuel).elim fun e' he => ?_
    exact chain_stops hr ⟨he, rfl⟩

theorem relation_returns (hr : (ending (lexemeAt rest)).rank ≤ Level.comparison.rank)
    (h : ∀ fuel, (binary fuel .additive ts).Returns e rest) (fuel : Nat) :
    (relation fuel ts).Returns e rest := by
  cases fuel with
  | zero => trivial
  | succ fuel =>
    simp only [relation, post_bind, post_peek]
    refine (h fuel).elim fun e' he => ?_
    cases ho : comparisonOp? (lexemeAt rest) with
    | none => exact ⟨he, rfl⟩
    | some op =>
      obtain ⟨hop, hl⟩ := comparisonOp?_eq_some_iff.mp ho
      rw [hl, rank_ending_comparison hop] at hr
      exact absurd hr (by decide)

/-! The first lexeme opens no phrase that is only looser, so that a rule goes on to that of the next
tighter level. The lexeme behind is no operator of the looser level, so that the rule stops there. -/

theorem expression_returns (ho : Level.logical.rank ≤ (opening (lexemeAt ts)).rank)
    (h : ∀ fuel, (binary fuel .logical ts).Returns e rest) :
    (expression (fuel + 1) ts).Returns e rest := by
  simp only [expression, post_bind, post_peek]
  generalize hl : lexemeAt ts = l at ho
  split
  next => exact absurd ho (by decide)
  next =>
    simp only [post_orElse, ite_self]
    exact h fuel

theorem comparison_returns (ho : Level.additive.rank ≤ (opening (lexemeAt ts)).rank)
    (hr : (ending (lexemeAt rest)).rank ≤ Level.comparison.rank)
    (h : ∀ fuel, (binary fuel .additive ts).Returns e rest) :
    (comparison (fuel + 1) ts).Returns e rest := by
  simp only [comparison, post_bind, post_peek]
  generalize hl : lexemeAt ts = l at ho
  split
  next => exact absurd ho (by decide)
  next =>
    simp only [post_orElse, ite_self]
    exact relation_returns hr h fuel

theorem factor_returns (ho : Level.power.rank ≤ (opening (lexemeAt ts)).rank)
    (h : ∀ fuel, (power fuel ts).Returns e rest) :
    (factor (fuel + 1) ts).Returns e rest := by
  simp only [factor, post_bind, post_peek]
  cases hs : sign? (lexemeAt ts) with
  | none => exact h fuel
  | some op =>
    obtain ⟨hop, hl⟩ := sign?_eq_some_iff.mp hs
    rw [hl] at ho
    exact absurd ho (by revert hop; cases op <;> decide)

theorem power_returns (hr : (ending (lexemeAt rest)).rank ≤ Level.power.rank)
    (h : ∀ fuel, (call fuel ts).Returns e rest) :
    (power (fuel + 1) ts).Returns e rest := by
  simp only [power, post_bind]
  refine (h fuel).elim fun e' he => ?_
  exact exponents_stop hr ⟨he, rfl⟩

theorem call_returns (hr : (ending (lexemeAt rest)).rank ≤ Level.call.rank)
    (h : ∀ fuel, (atom fuel ts).Returns e rest) :
    (call (fuel + 1) ts).Returns e rest := by
  simp only [call, post_bind, post_peek]
  refine (h fuel).elim fun e' he => ?_
  generalize hl : lexemeAt rest = l at hr
  split
  next => exact absurd hr (by decide)
  next => exact ⟨he, rfl⟩

/-- What the rule of a level reads, the rule of the next looser level reads as well. -/
theorem returns_looser (l : Level) (ho : l.rank ≤ (opening (lexemeAt ts)).rank)
    (hr : (ending (lexemeAt rest)).rank ≤ l.looser.rank)
    (h : ∀ fuel, (reader l fuel ts).Returns e rest) (fuel : Nat) :
    (reader l.looser fuel ts).Returns e rest := by
  cases fuel with
  | zero => cases l <;> trivial
  | succ fuel =>
    cases l with
    | closed | expression => exact h (fuel + 1)
    | logical => exact expression_returns ho h
    | comparison => exact binary_returns .logical hr h
    | additive => exact comparison_returns ho hr h
    | multiplicative => exact binary_returns .additive hr h
    | factor => exact binary_returns .multiplicative hr h
    | power => exact factor_returns ho h
    | call => exact power_returns hr h
    | atom => exact call_returns hr h

theorem returns_loosen {k l : Level} (hkl : k.rank ≤ l.rank)
    (ho : l.rank ≤ (opening (lexemeAt ts)).rank) (hr : (ending (lexemeAt rest)).rank ≤ k.rank)
    (h : ∀ fuel, (reader l fuel ts).Returns e rest) :
    ∀ fuel, (reader k fuel ts).Returns e rest := by
  by_cases he : k.rank = l.rank
  · rw [Level.rank_injective he]
    exact h
  · have hl : l.looser.rank + 1 = l.rank := by
      rw [Level.rank_looser]
      omega
    have hs := returns_looser l ho (by omega) h
    exact returns_loosen (by omega) (by omega) hr hs
termination_by l.rank

/-- The rule of the level reads the lexemes as the tree. -/
def Recovers (l : Level) (w : List Lexeme) (e : Tree) : Prop :=
  ∀ ts rest, Takes w ts rest → (ending (lexemeAt rest)).rank ≤ l.rank →
    ∀ fuel, (reader l fuel ts).Returns e rest

/-- After the lexemes the rule of the tier goes on with the tree as its left operand. This is more
than reading the tree, since an operator of the tier may follow. -/
def Leads (t : Tier) (w : List Lexeme) (e : Tree) : Prop :=
  ∀ ts rest (F : Node → List Token → Prop), Takes w ts rest →
    (ending (lexemeAt rest)).rank ≤ t.inner.rank →
    (∀ fuel left, left.erase = e → (chain fuel t left rest).Post F (fun _ _ => False) True) →
    ∀ fuel, (binary fuel t ts).Post F (fun _ _ => False) True

theorem Leads.recovers {w : List Lexeme} (h : Leads t w e) : Recovers t.level w e := by
  intro ts rest hts hr fuel
  rw [reader_level]
  have hi : (ending (lexemeAt rest)).rank ≤ t.inner.rank := by
    rw [rank_inner]
    omega
  exact h ts rest _ hts hi (fun _ _ he => chain_stops hr ⟨he, rfl⟩) fuel

theorem Recovers.leads {w : List Lexeme} (h : Recovers t.inner w e) : Leads t w e := by
  intro ts rest F hts hr hF fuel
  cases fuel with
  | zero => trivial
  | succ fuel =>
    simp only [binary, post_bind]
    cases fuel with
    | zero => trivial
    | succ fuel =>
      -- The chain starts behind the tree, as the first operand.
      rw [operand_succ]
      refine (h ts rest hts hr fuel).elim fun left hl => ?_
      exact hF (fuel + 1) left hl

/-- The tree is read back in every place, and as the left operand of an operation. -/
structure Written (e : Tree) : Prop where
  recovers : ∀ l, Recovers l (write l e) e
  leads : ∀ t, Leads t (write t.level e) e

theorem Takes.lexemeAt_eq {w : List Lexeme} (h : Takes w ts rest) :
    lexemeAt ts = (w ++ lexemes rest).headD .eof := by
  obtain ⟨read, rfl, rfl⟩ := h
  cases read with
  | nil => cases rest <;> rfl
  | cons t read => rfl

/-- Where the tree is looser than its place, it is read between parentheses. -/
theorem recovers_group (h : Recovers .closed (bare e) e) :
    Recovers .atom (.openParen :: (bare e ++ [.closeParen])) e := by
  intro ts rest hts _ fuel
  obtain ⟨hl, hts⟩ := hts.uncons
  obtain ⟨mid, he, hm⟩ := hts.split
  obtain ⟨hc, hm⟩ := hm.uncons
  cases fuel with
  | zero => trivial
  | succ fuel =>
    change (atom (fuel + 1) ts).Returns e rest
    simp only [atom, post_bind, post_peek, hl, post_pure, post_advance, reduceCtorEq, if_false]
    refine (h _ mid he (by rw [hc]; decide) fuel).elim fun e' he' => ?_
    simp only [post_expect, hc, reduceCtorEq, if_true, if_false]
    exact ⟨he', hm.eq_of_nil⟩

theorem recovers_write (h : Recovers (level e) (bare e) e) (l : Level) :
    Recovers l (write l e) e := by
  have loosen : ∀ k : Level, k.rank ≤ (level e).rank → Recovers k (bare e) e := by
    intro k hk ts rest hts hr
    have ho : (level e).rank ≤ (opening (lexemeAt ts)).rank := by
      rw [hts.lexemeAt_eq]
      exact level_rank_le_opening e _
    exact returns_loosen hk ho hr (h ts rest hts (Nat.le_trans hr hk))
  by_cases hl : l.rank ≤ (level e).rank
  · rw [write_of_le hl]
    exact loosen l hl
  · rw [write_of_lt (Nat.lt_of_not_le hl)]
    -- Between parentheses the tree is an atom.
    intro ts rest hts hr
    have ho : Level.atom.rank ≤ (opening (lexemeAt ts)).rank := by
      rw [hts.lexemeAt_eq]
      exact Nat.le_refl _
    have ha := recovers_group (loosen .closed (Nat.zero_le _)) ts rest hts
    exact returns_loosen l.rank_le_atom ho hr (ha (ending _).rank_le_atom)

/-- A tree that is not an operation of the tier is written in the same way as an operand and as an
operation of it. -/
theorem write_inner (h : level e ≠ t.level) : write t.inner e = write t.level e := by
  have hne : (level e).rank ≠ t.level.rank := fun hr => h (Level.rank_injective hr)
  have hi := rank_inner t
  by_cases hl : t.level.rank ≤ (level e).rank
  · rw [write_of_le hl, write_of_le (by omega)]
  · rw [write_of_lt (by omega), write_of_lt (by omega)]

theorem Written.of_recovers (h : Recovers (level e) (bare e) e)
    (hl : ∀ t : Tier, level e = t.level → Leads t (bare e) e) : Written e := by
  refine ⟨recovers_write h, fun t => ?_⟩
  by_cases he : level e = t.level
  · rw [write_of_le (by rw [he])]
    exact hl t he
  · rw [← write_inner he]
    exact (recovers_write h t.inner).leads

theorem Written.of_leads (ht : level e = t.level) (h : Leads t (bare e) e) : Written e := by
  refine .of_recovers (ht ▸ h.recovers) fun t' ht' => ?_
  rw [ht] at ht'
  cases t <;> cases t' <;> first | exact h | exact absurd ht' (by decide)

section

variable {c l r : Tree} {op : BinaryOp}

theorem operation_written (hop : op ∈ operators t) (hl : Written l) (hr : Written r) :
    Written (.binary () op l r) := by
  obtain ⟨hlevel, hleft, hright⟩ := operators_level hop
  refine .of_leads hlevel ?_
  intro ts rest F hts hend hF fuel
  rw [bare_binary, hleft, hright] at hts
  obtain ⟨mid, hu, hv⟩ := hts.split
  obtain ⟨ho, hv⟩ := hv.uncons
  have hmid : (ending (lexemeAt mid)).rank ≤ t.inner.rank := by
    rw [ho, rank_ending_operator hop]
  -- The left operand leads on to the operator, which the same chain takes with its right operand.
  refine hl.leads t ts mid F hu hmid (fun fuel left he => ?_) fuel
  cases fuel with
  | zero => trivial
  | succ fuel =>
    have hs : t.op? op.lexeme = some op := op?_eq_some_iff.mpr ⟨hop, rfl⟩
    simp only [chain, post_bind, post_peek, ho, hs, post_advance, lexeme_ne_eof, if_false]
    cases fuel with
    | zero => trivial
    | succ fuel =>
      rw [operand_succ]
      refine (hr.recovers t.inner _ _ hv hend fuel).elim fun right he' => ?_
      apply hF
      rw [Expr.erase_joined, he, he']

/-- A place of the level asks for a lexeme that opens a phrase of it. -/
theorem rank_le_opening_of_takes {l : Level} {v : List Lexeme}
    (h : Takes (write l e ++ v) ts rest) : l.rank ≤ (opening (lexemeAt ts)).rank := by
  rw [h.lexemeAt_eq, List.append_assoc]
  exact rank_le_opening_write (level_rank_le_opening e)

theorem comparison_written (hop : op ∈ comparisons) (hl : Written l) (hr : Written r) :
    Written (.binary () op l r) := by
  obtain ⟨hlevel, hleft, hright⟩ := comparisons_level hop
  refine .of_recovers ?_ fun t ht => by
    rw [level_binary, hlevel] at ht
    cases t <;> cases ht
  rw [level_binary, hlevel]
  intro ts rest hts hend fuel
  rw [bare_binary, hleft, hright] at hts
  have ho := rank_le_opening_of_takes hts
  obtain ⟨mid, hu, hv⟩ := hts.split
  obtain ⟨hm, hv⟩ := hv.uncons
  cases fuel with
  | zero => trivial
  | succ fuel =>
    change (comparison (fuel + 1) ts).Returns _ rest
    simp only [comparison, post_bind, post_peek]
    generalize lexemeAt ts = first at ho
    split
    -- A sum does not start with NOT.
    next => exact absurd ho (by decide)
    next =>
      simp only [post_orElse, ite_self]
      cases fuel with
      | zero => trivial
      | succ fuel =>
        have hs : comparisonOp? op.lexeme = some op := comparisonOp?_eq_some_iff.mpr ⟨hop, rfl⟩
        have hmid : (ending (lexemeAt mid)).rank ≤ Level.additive.rank := by
          rw [hm, rank_ending_comparison hop]
        simp only [relation, post_bind, post_peek]
        refine (hl.recovers .additive ts mid hu hmid fuel).elim fun left he => ?_
        simp only [hm, hs, post_bind, post_pure, post_advance, lexeme_ne_eof, if_false]
        have hrest : (ending (lexemeAt rest)).rank ≤ Level.additive.rank :=
          Nat.le_trans hend (by decide)
        refine (hr.recovers .additive _ rest hv hrest fuel).elim fun right he' => ?_
        exact ⟨by rw [Expr.erase_joined, he, he'], rfl⟩

theorem raise_written (hl : Written l) (hr : Written r) : Written (.binary () .pow l r) := by
  refine .of_recovers ?_ fun t ht => by cases t <;> cases ht
  rw [level_binary, bare_binary]
  intro ts rest hts hend fuel
  obtain ⟨mid, hu, hv⟩ := hts.split
  obtain ⟨hm, hv⟩ := hv.uncons
  cases fuel with
  | zero => trivial
  | succ fuel =>
    have hmid : (ending (lexemeAt mid)).rank ≤ Level.call.rank := by
      rw [hm]
      decide
    change (power (fuel + 1) ts).Returns _ rest
    simp only [power, post_bind]
    refine (hl.recovers .call ts mid hu hmid fuel).elim fun left he => ?_
    cases fuel with
    | zero => trivial
    | succ fuel =>
      simp only [exponents, post_bind, post_peek, hm, BinaryOp.lexeme, post_advance, reduceCtorEq,
        if_false]
      refine (hr.recovers .factor _ rest hv (ending_le_factor hend) fuel).elim fun right he' => ?_
      refine exponents_stop hend ⟨?_, rfl⟩
      rw [Expr.erase_joined, he, he']

theorem not_written (h : Written e) : Written (.unary () .not e) := by
  refine .of_recovers ?_ fun t ht => by cases t <;> cases ht
  intro ts rest hts hend fuel
  obtain ⟨hl, hts⟩ := Takes.uncons hts
  cases fuel with
  | zero => trivial
  | succ fuel =>
    change (comparison (fuel + 1) ts).Returns _ rest
    simp only [comparison, post_bind, post_peek, hl, UnaryOp.lexeme, post_pure, post_advance,
      reduceCtorEq, if_false]
    refine (h.recovers .comparison _ rest hts hend fuel).elim fun e' he => ?_
    exact ⟨by rw [Expr.erase_unary, he], rfl⟩

theorem sign_written {sign : UnaryOp} (hs : sign ∈ signs) (h : Written e) :
    Written (.unary () sign e) := by
  have hlevel : sign.level = .factor := by
    revert hs
    cases sign <;> decide
  refine .of_recovers ?_ fun t ht => by
    rw [level_unary, hlevel] at ht
    cases t <;> cases ht
  rw [level_unary, hlevel]
  intro ts rest hts hend fuel
  obtain ⟨hl, hts⟩ := Takes.uncons hts
  cases fuel with
  | zero => trivial
  | succ fuel =>
    change (factor (fuel + 1) ts).Returns _ rest
    have ho : sign? sign.lexeme = some sign := sign?_eq_some_iff.mpr ⟨hs, rfl⟩
    simp only [factor, post_bind, post_peek, hl, ho, post_pure, post_advance, sign_ne_eof, if_false]
    rw [hlevel] at hts
    refine (h.recovers .factor _ rest hts hend fuel).elim fun e' he => ?_
    exact ⟨by rw [Expr.erase_unary, he], rfl⟩

theorem binary_written (op : BinaryOp) (hl : Written l) (hr : Written r) :
    Written (.binary () op l r) := by
  cases op with
  | and | or => exact operation_written (t := .logical) (by decide) hl hr
  | eq | ne | lt | le | gt | ge => exact comparison_written (by decide) hl hr
  | add | sub => exact operation_written (t := .additive) (by decide) hl hr
  | mul | div => exact operation_written (t := .multiplicative) (by decide) hl hr
  | pow => exact raise_written hl hr

theorem unary_written (op : UnaryOp) (h : Written e) : Written (.unary () op e) := by
  cases op with
  | plus | minus => exact sign_written (by decide) h
  | not => exact not_written h

theorem assign_written (x : String) (h : Written e) : Written (.assign () x e) := by
  refine .of_recovers ?_ fun t ht => by cases t <;> cases ht
  intro ts rest hts hend fuel
  obtain ⟨hl, hts⟩ := Takes.uncons hts
  obtain ⟨hx, hts⟩ := Takes.uncons hts
  obtain ⟨heq, hts⟩ := Takes.uncons hts
  cases fuel with
  | zero => trivial
  | succ fuel =>
    change (expression (fuel + 1) ts).Returns _ rest
    simp only [expression, post_bind, post_peek, hl, post_pure, post_advance, identifier, hx,
      post_expect, heq, reduceCtorEq, if_true, if_false]
    refine (h.recovers .expression _ rest hts hend fuel).elim fun e' he => ?_
    exact ⟨by rw [Expr.erase_assign, he], rfl⟩

end

end Minibasic.Parser

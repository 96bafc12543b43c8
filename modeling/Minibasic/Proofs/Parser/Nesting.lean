import Minibasic.Proofs.Parser.Acceptance
import Minibasic.Proofs.Parser.Spans
import Minibasic.Proofs.Token.Tiling

/-!
The spans of the nodes of a tree. They lie in the source from the start of a token to the stop of a
token, a node encloses its children, and these lie one before the other in the order in which they
are written.
-/

namespace Minibasic.Parser

open Grammar

/-- The rule lays out what it reads as one node. -/
def Nests (r : Rule Node) : Prop := ∀ ts, (r ts).Gives fun e rest => Lays [e] [e.mark] ts rest

theorem parameters_lays (ts : List Token) :
    (parameters ts).Gives fun _ rest => Lays [] [] ts rest := by
  refine (parameters_take ts).mono fun ps rest tp => .of_takes tp ?_
  cases ps with
  | nil => simp [parameterLexemes]
  | cons p ps => simp [parameterLexemes_cons]

/-- An operator between what has been laid out and a right operand makes a node of both. -/
theorem Lays.joined {left right : Node} {ts mid rest : List Token} {l : Lexeme} (op : BinaryOp)
    (hleft : Lays [left] [left.mark] ts mid) (hl : lexemeAt mid = l) (he : l ≠ .eof)
    (hright : Lays [right] [right.mark] mid.tail rest) :
    Lays [Parser.joined op left right] [(Parser.joined op left right).mark] ts rest :=
  (hleft.append (.skip hl he hright)).node (List.Subset.refl _) (List.Sublist.refl _) rfl rfl rfl

/-- Every rule lays out what it reads. -/
structure Nesting (fuel : Nat) : Prop where
  expression : Nests (expression fuel)
  binary : ∀ t, Nests (binary fuel t)
  operand : ∀ t, Nests (operand fuel t)
  chain : ∀ t left ts₀ ts, Lays [left] [left.mark] ts₀ ts →
    (chain fuel t left ts).Gives fun e rest => Lays [e] [e.mark] ts₀ rest
  comparison : Nests (comparison fuel)
  relation : Nests (relation fuel)
  factor : Nests (factor fuel)
  power : Nests (power fuel)
  exponents : ∀ base ts₀ ts, Lays [base] [base.mark] ts₀ ts →
    (exponents fuel base ts).Gives fun e rest => Lays [e] [e.mark] ts₀ rest
  call : Nests (call fuel)
  arguments : ∀ ts, (arguments fuel ts).Gives fun es rest => Lays es (es.map Expr.mark) ts rest
  moreArguments : ∀ ts,
    (moreArguments fuel ts).Gives fun es rest => Lays es (es.map Expr.mark) ts rest
  atom : Nests (atom fuel)
  guarded : ∀ ts,
    (guarded fuel ts).Gives fun c rest => Lays [c.1, c.2] [c.1.mark, c.2.mark] ts rest
  choice : ∀ ts, lexemeAt ts ≠ .eof →
    (choice fuel ts).Gives fun e rest => Lays [e] [e.mark] ts rest
  arms : ∀ ts,
    (arms fuel ts).Gives fun as rest => Lays as.children (as.children.map Expr.mark) ts rest
  count : ∀ ts, lexemeAt ts ≠ .eof →
    (count fuel ts).Gives fun e rest => Lays [e] [e.mark] ts rest
  step : ∀ ts, (step fuel ts).Gives fun s rest => Lays s.toList (s.toList.map Expr.mark) ts rest
  loop : ∀ ts, lexemeAt ts ≠ .eof →
    (loop fuel ts).Gives fun e rest => Lays [e] [e.mark] ts rest
  function : ∀ ts, lexemeAt ts ≠ .eof →
    (function fuel ts).Gives fun e rest => Lays [e] [e.mark] ts rest
  signature : ∀ ts, (signature fuel ts).Gives fun s rest => Lays [s.2] [s.2.mark] ts rest

section

variable {fuel : Nat} (h : Nesting fuel)
include h

theorem expression_nests : Nests (expression (fuel + 1)) := by
  intro ts
  simp only [expression, post_bind, post_peek]
  generalize hl : lexemeAt ts = l
  split
  next =>
    simp only [post_bind, post_pure, post_advance, hl, reduceCtorEq, if_false]
    refine gives_identifier fun x hx => gives_expect (by simp) fun heq => ?_
    refine (h.expression _).mono fun e rest he => ?_
    exact .headed hl (by simp) (.skip hx (by simp) (.skip heq (by simp) he)) rfl rfl rfl
  next =>
    simp only [post_orElse, ite_self]
    exact h.binary .logical ts

theorem binary_nests (t : Tier) : Nests (binary (fuel + 1) t) := by
  intro ts
  simp only [binary, post_bind]
  exact (h.operand t ts).mono fun left mid hleft => h.chain t left ts mid hleft

theorem operand_nests (t : Tier) : Nests (operand (fuel + 1) t) := by
  cases t with
  | logical => exact h.comparison
  | additive => exact h.binary .multiplicative
  | multiplicative => exact h.factor

theorem chain_nests (t : Tier) (left : Node) (ts₀ ts : List Token)
    (hleft : Lays [left] [left.mark] ts₀ ts) :
    (chain (fuel + 1) t left ts).Gives fun e rest => Lays [e] [e.mark] ts₀ rest := by
  simp only [chain, post_bind, post_peek]
  generalize ho : t.op? (lexemeAt ts) = o
  split
  next op =>
    obtain ⟨-, hl⟩ := op?_eq_some_iff.mp ho
    have he : lexemeAt ts ≠ .eof := hl ▸ lexeme_ne_eof op
    simp only [post_bind, post_advance, he, if_false]
    refine (h.operand t _).mono fun right mid hright => ?_
    exact h.chain t _ ts₀ mid (hleft.joined op rfl he hright)
  next => exact hleft

theorem comparison_nests : Nests (comparison (fuel + 1)) := by
  intro ts
  simp only [comparison, post_bind, post_peek]
  generalize hl : lexemeAt ts = l
  split
  next =>
    simp only [post_bind, post_pure, post_advance, hl, reduceCtorEq, if_false]
    exact (h.comparison _).mono fun e rest he => .headed hl (by simp) he rfl rfl rfl
  next =>
    simp only [post_orElse, ite_self]
    exact h.relation ts

theorem relation_nests : Nests (relation (fuel + 1)) := by
  intro ts
  simp only [relation, post_bind, post_peek]
  refine (h.binary .additive ts).mono fun left mid hleft => ?_
  generalize ho : comparisonOp? (lexemeAt mid) = o
  split
  next op =>
    obtain ⟨-, hl⟩ := comparisonOp?_eq_some_iff.mp ho
    have he : lexemeAt mid ≠ .eof := hl ▸ lexeme_ne_eof op
    simp only [post_bind, post_pure, post_advance, he, if_false]
    exact (h.binary .additive _).mono fun right rest hright => hleft.joined op rfl he hright
  next => exact hleft

theorem factor_nests : Nests (factor (fuel + 1)) := by
  intro ts
  simp only [factor, post_bind, post_peek]
  generalize ho : sign? (lexemeAt ts) = o
  split
  next op =>
    obtain ⟨-, hl⟩ := sign?_eq_some_iff.mp ho
    have hne : lexemeAt ts ≠ .eof := hl ▸ sign_ne_eof op
    simp only [post_bind, post_pure, post_advance, hne, if_false]
    exact (h.factor _).mono fun e rest he => .headed rfl hne he rfl rfl rfl
  next => exact h.power ts

theorem power_nests : Nests (power (fuel + 1)) := by
  intro ts
  simp only [power, post_bind]
  exact (h.call ts).mono fun base mid hbase => h.exponents base ts mid hbase

theorem exponents_nests (base : Node) (ts₀ ts : List Token)
    (hbase : Lays [base] [base.mark] ts₀ ts) :
    (exponents (fuel + 1) base ts).Gives fun e rest => Lays [e] [e.mark] ts₀ rest := by
  simp only [exponents, post_bind, post_peek]
  generalize hl : lexemeAt ts = l
  split
  next =>
    simp only [post_bind, post_advance, hl, reduceCtorEq, if_false]
    refine (h.factor _).mono fun exponent mid he => ?_
    exact h.exponents _ ts₀ mid (hbase.joined .pow hl (by simp) he)
  next => exact hbase

theorem call_nests : Nests (call (fuel + 1)) := by
  intro ts
  simp only [call, post_bind, post_peek]
  refine (h.atom ts).mono fun callee mid hcallee => ?_
  generalize hl : lexemeAt mid = l
  split
  next =>
    simp only [post_bind, post_pure, post_advance, hl, reduceCtorEq, if_false]
    refine (h.arguments _).mono fun as mid' has => gives_expect (by simp) fun hc => ?_
    have hlays := (hcallee.append (.skip hl (by simp) has)).concat hc (by simp)
    exact hlays.node (List.Subset.refl _) (List.sublist_append_left _ _) rfl
      List.getLast?_concat rfl
  next => exact hcallee

theorem arguments_nests (ts : List Token) :
    (arguments (fuel + 1) ts).Gives fun es rest => Lays es (es.map Expr.mark) ts rest := by
  simp only [arguments, post_bind, post_peek]
  generalize hl : lexemeAt ts = l
  split
  next => exact .nil
  next =>
    simp only [post_bind, post_pure, post_orElse, ite_self]
    refine (h.expression ts).mono fun e mid he => ?_
    exact (h.moreArguments mid).mono fun es rest hes => he.append hes

theorem moreArguments_nests (ts : List Token) :
    (moreArguments (fuel + 1) ts).Gives fun es rest => Lays es (es.map Expr.mark) ts rest := by
  simp only [moreArguments, post_bind, post_peek]
  generalize hl : lexemeAt ts = l
  split
  next =>
    simp only [post_bind, post_pure, post_advance, hl, reduceCtorEq, if_false]
    refine (h.expression _).mono fun e mid he => (h.moreArguments mid).mono fun es rest hes => ?_
    exact .skip hl (by simp) (he.append hes)
  next => exact .nil

theorem atom_nests : Nests (atom (fuel + 1)) := by
  intro ts
  simp only [atom, post_bind, post_peek]
  generalize hl : lexemeAt ts = l
  have hne (hl' : l ≠ .eof) : lexemeAt ts ≠ .eof := hl ▸ hl'
  split
  case h_10 => trivial
  case h_2 => exact h.choice ts (hne (by simp))
  case h_3 => exact h.count ts (hne (by simp))
  case h_4 => exact h.loop ts (hne (by simp))
  case h_5 => exact h.function ts (hne (by simp))
  all_goals simp only [post_bind, post_pure, post_advance, hl, reduceCtorEq, if_false]
  case h_1 =>
    -- The parentheses belong to no node.
    refine (h.expression _).mono fun e mid he => gives_expect (by simp) fun hc => ?_
    exact (he.skip hl (by simp)).skip_end hc (by simp)
  all_goals exact .leaf hl (by simp) rfl rfl

theorem guarded_nests (ts : List Token) : (guarded (fuel + 1) ts).Gives fun c rest =>
    Lays [c.1, c.2] [c.1.mark, c.2.mark] ts rest := by
  simp only [guarded, post_bind, post_pure]
  refine (h.expression ts).mono fun test mid htest => gives_expect (by simp) fun hthen => ?_
  refine (h.expression _).mono fun body rest hbody => ?_
  exact htest.append (.skip hthen (by simp) hbody)

theorem choice_nests (ts : List Token) (hne : lexemeAt ts ≠ .eof) :
    (choice (fuel + 1) ts).Gives fun e rest => Lays [e] [e.mark] ts rest := by
  simp only [choice, post_bind, post_pure, post_advance, hne, if_false]
  refine (h.guarded _).mono fun case mid hcase => (h.arms mid).mono fun as rest has => ?_
  refine .headed rfl hne (hcase.append has) rfl ?_ rfl
  rw [Arms.lastMark?_eq]
  simp [List.getLast?_cons]

theorem arms_nests (ts : List Token) : (arms (fuel + 1) ts).Gives fun as rest =>
    Lays as.children (as.children.map Expr.mark) ts rest := by
  simp only [arms, post_bind, post_peek]
  generalize hl : lexemeAt ts = l
  split
  next =>
    simp only [post_bind, post_pure, post_advance, hl, reduceCtorEq, if_false]
    refine (h.guarded _).mono fun case mid hcase => (h.arms mid).mono fun as rest has => ?_
    exact .skip hl (by simp) (hcase.append has)
  next =>
    simp only [post_bind, post_pure, post_advance, hl, reduceCtorEq, if_false]
    exact (h.expression _).mono fun body rest hbody => .skip hl (by simp) hbody
  next => exact .nil

theorem count_nests (ts : List Token) (hne : lexemeAt ts ≠ .eof) :
    (count (fuel + 1) ts).Gives fun e rest => Lays [e] [e.mark] ts rest := by
  simp only [count, post_bind, post_pure, post_advance, hne, if_false]
  refine gives_identifier fun x hx => gives_expect (by simp) fun heq => ?_
  refine (h.expression _).mono fun first r₁ hfirst => gives_expect (by simp) fun hto => ?_
  refine (h.expression _).mono fun last r₂ hlast => (h.step r₂).mono fun by_ r₃ hstep => ?_
  refine gives_expect (by simp) fun hthen => (h.expression _).mono fun body rest hbody => ?_
  have hbounds := hfirst.append (.skip hto (by simp) (hlast.append hstep))
  have hall := hbounds.append (.skip hthen (by simp) hbody)
  refine .headed rfl hne (.skip hx (by simp) (.skip heq (by simp) ?_)) rfl ?_ rfl
  · simpa [Expr.children] using hall
  · simp [Expr.children, List.getLast?_cons]

theorem step_nests (ts : List Token) : (step (fuel + 1) ts).Gives fun s rest =>
    Lays s.toList (s.toList.map Expr.mark) ts rest := by
  simp only [step, post_bind, post_peek]
  generalize hl : lexemeAt ts = l
  split
  next =>
    simp only [post_bind, post_pure, post_advance, hl, reduceCtorEq, if_false]
    exact (h.expression _).mono fun e rest he => .skip hl (by simp) he
  next => exact .nil

theorem loop_nests (ts : List Token) (hne : lexemeAt ts ≠ .eof) :
    (loop (fuel + 1) ts).Gives fun e rest => Lays [e] [e.mark] ts rest := by
  simp only [loop, post_bind, post_pure, post_advance, hne, if_false]
  exact (h.guarded _).mono fun case rest hcase => .headed rfl hne hcase rfl rfl rfl

theorem function_nests (ts : List Token) (hne : lexemeAt ts ≠ .eof) :
    (function (fuel + 1) ts).Gives fun e rest => Lays [e] [e.mark] ts rest := by
  simp only [function, post_bind, post_peek, post_advance, hne, if_false]
  generalize hn : lexemeAt ts.tail = n
  split
  next name =>
    simp only [post_bind, post_pure, post_advance, hn, reduceCtorEq, if_false]
    refine gives_expect (by simp) fun ho => (h.signature _).mono fun s rest hbody => ?_
    exact .headed rfl hne (.skip hn (by simp) (.skip ho (by simp) hbody)) rfl rfl rfl
  next =>
    simp only [post_bind, post_pure]
    refine gives_expect (by simp) fun ho => (h.signature _).mono fun s rest hbody => ?_
    exact .headed rfl hne (.skip ho (by simp) hbody) rfl rfl rfl

theorem signature_nests (ts : List Token) : (signature (fuel + 1) ts).Gives fun s rest =>
    Lays [s.2] [s.2.mark] ts rest := by
  simp only [signature, post_bind, post_pure]
  refine (parameters_lays ts).mono fun ps mid hps => gives_expect (by simp) fun ha => ?_
  exact (h.expression _).mono fun body rest hbody => hps.append (.skip ha (by simp) hbody)

end

theorem nesting (fuel : Nat) : Nesting fuel := by
  induction fuel with
  | zero => constructor <;> intros <;> first | trivial | (intro; trivial)
  | succ fuel h =>
    exact {
      expression := expression_nests h
      binary := binary_nests h
      operand := operand_nests h
      chain := chain_nests h
      comparison := comparison_nests h
      relation := relation_nests h
      factor := factor_nests h
      power := power_nests h
      exponents := exponents_nests h
      call := call_nests h
      arguments := arguments_nests h
      moreArguments := moreArguments_nests h
      atom := atom_nests h
      guarded := guarded_nests h
      choice := choice_nests h
      arms := arms_nests h
      count := count_nests h
      step := step_nests h
      loop := loop_nests h
      function := function_nests h
      signature := signature_nests h }

theorem lays_of_parse_ok {ts : List Token} {e : Node} (h : parse ts = .ok e) :
    ∃ rest, Lays [e] [e.mark] ts rest := by
  obtain ⟨rest, hp⟩ := program_of_parse_ok h
  have hlays : (program (enoughFuel ts) ts).Gives fun e rest => Lays [e] [e.mark] ts rest := by
    simp only [program, post_bind, post_peek]
    refine ((nesting _).expression ts).mono fun e rest he => ?_
    split
    · exact he
    · trivial
  rw [hp] at hlays
  exact ⟨rest, hlays⟩

end Minibasic.Parser

namespace Minibasic

namespace Scan.Tiling

variable {s : Source} {pieces : List (List Char × Token)} {last : List Char}

theorem ordered_pieces (h : Tiling s [] pieces last) : Parser.Ordered (pieces.map Prod.snd) where
  nonempty t ht := by
    obtain ⟨p, hp, rfl⟩ := List.mem_map.mp ht
    exact h.nonempty p hp
  before := List.pairwise_map.mpr (List.pairwise_append.mp h.ordered).1

end Scan.Tiling

namespace Parser

theorem prefix_of_not_mem {α : Type} {l l' r : List α} {a : α} (h : l ++ [a] = l' ++ r)
    (ha : a ∉ l') : l' <+: l := by
  rcases List.append_eq_append_iff.mp h with ⟨c, rfl, hc⟩ | ⟨c, rfl, -⟩
  · cases c with
    | nil => rw [List.append_nil]
    | cons x c =>
      obtain ⟨rfl, -⟩ := List.cons.inj hc
      exact absurd (List.mem_append_right _ List.mem_cons_self) ha
  · exact List.prefix_append _ _

/-- Spans nest as expressions do. In the tree of a text, every node has a part of the text that is
not empty as its span. It starts where a token starts, stops where a token stops and encloses the
spans of the children, which lie one before the other in the order in which they are written. -/
theorem spans_nest {s : Source} {ts : List Token} {e : Node} (hts : Scan.tokens s = .ok ts)
    (he : parse ts = .ok e) : ∀ n ∈ e.nodes,
      (∃ before word rest, s.text.toList = before ++ (word ++ rest) ∧ word ≠ [] ∧
        n.mark = .after s before word) ∧
      (∃ t ∈ ts, t.lexeme ≠ .eof ∧ t.span.start = n.mark.start) ∧
      (∃ t ∈ ts, t.lexeme ≠ .eof ∧ t.span.stop = n.mark.stop) ∧
      (∀ c ∈ n.children, n.mark.Encloses c.mark) ∧
      (n.children.map Expr.mark).Pairwise Span.Before := by
  intro n hn
  obtain ⟨pieces, last, htiling, hpieces⟩ := ((Scan.tokens_eq_iff s _).mp hts).tiling ts rfl rfl
  obtain ⟨rest, read, hread, hne, hlaid⟩ := lays_of_parse_ok he
  have hread : read <+: pieces.map Prod.snd := by
    refine prefix_of_not_mem (hpieces.symm.trans hread) fun hend => hne _ hend rfl
  have hsub := hread.subset
  obtain ⟨more, hmore⟩ := hread
  have hneat := (hlaid (hmore ▸ htiling.ordered_pieces).of_append.1).neat e List.mem_cons_self n hn
  obtain ⟨t, ht, hstart⟩ := hneat.ofTokens.start
  obtain ⟨u, hu, hstop⟩ := hneat.ofTokens.stop
  have hall : read ⊆ ts := by
    rw [hpieces]
    exact List.Subset.trans hsub (List.subset_append_left _ _)
  refine ⟨?_, ⟨t, hall ht, hne t ht, hstart⟩, ⟨u, hall hu, hne u hu, hstop⟩, hneat.encloses,
    hneat.ordered⟩
  obtain ⟨before, -, hbefore, -, htstart, -⟩ := htiling.exists_past (hsub ht)
  obtain ⟨-, upTo, -, hupTo, -, hustop⟩ := htiling.exists_past (hsub hu)
  rw [hstart] at htstart
  rw [hstop] at hustop
  exact ⟨before, Span.exists_after htstart hustop hbefore hupTo hneat.ofTokens.nonempty⟩

/-- The tree of `(f)(-x)` has the spans `f)(-x)`, `f`, `-x` and `x`. -/
theorem spans_nest_parentheses :
    ∃ ts e, Scan.tokens ⟨"a", "(f)(-x)"⟩ = .ok ts ∧ parse ts = .ok e ∧
      e.nodes.map (fun n => n.mark.text) = ["f)(-x)", "f", "-x", "x"] ∧
      ∀ n ∈ e.nodes,
        (∃ before word rest, ['(', 'f', ')', '(', '-', 'x', ')'] = before ++ (word ++ rest) ∧
          word ≠ [] ∧ n.mark = .after ⟨"a", "(f)(-x)"⟩ before word) ∧
        (∃ t ∈ ts, t.lexeme ≠ .eof ∧ t.span.start = n.mark.start) ∧
        (∃ t ∈ ts, t.lexeme ≠ .eof ∧ t.span.stop = n.mark.stop) ∧
        (∀ c ∈ n.children, n.mark.Encloses c.mark) ∧
        (n.children.map Expr.mark).Pairwise Span.Before := by
  have hspans : (match Scan.tokens ⟨"a", "(f)(-x)"⟩ >>= parse with
      | .ok e => e.nodes.map fun n => n.mark.text
      | .error _ => []) = ["f)(-x)", "f", "-x", "x"] := by decide +kernel
  cases hts : Scan.tokens ⟨"a", "(f)(-x)"⟩ with
  | error d =>
    rw [hts] at hspans
    cases hspans
  | ok ts =>
    cases he : parse ts with
    | error d =>
      rw [hts] at hspans
      change (match parse ts with | .ok e => _ | .error _ => _) = _ at hspans
      rw [he] at hspans
      cases hspans
    | ok e =>
      rw [hts] at hspans
      change (match parse ts with | .ok e => _ | .error _ => _) = _ at hspans
      rw [he] at hspans
      exact ⟨ts, e, rfl, he, hspans, spans_nest hts he⟩

end Parser

end Minibasic

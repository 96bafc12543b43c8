import Minibasic.Proofs.Parser.Soundness
import Minibasic.Proofs.Parser.Completeness

/-!
Where tokens stand does not matter to the parser. On two lists with the same lexemes every rule
takes the same number of tokens, and finds the same tree or misses the same at the same place.
-/

namespace Minibasic.Parser

variable {α β γ δ : Type} {R : α → β → Prop} {S : γ → δ → Prop} {ts ts' : List Token}

/-- The lists have the same lexemes, the last of which is the end of the text. -/
structure SameLexemes (ts ts' : List Token) : Prop where
  lexemes : lexemes ts = lexemes ts'
  last : (Parser.lexemes ts).getLast? = some .eof

namespace SameLexemes

theorem length (h : SameLexemes ts ts') : ts.length = ts'.length := by
  have hl := congrArg List.length h.lexemes
  simpa [Parser.lexemes] using hl

theorem pos (h : SameLexemes ts ts') : 0 < ts.length := by
  cases ts with
  | nil => cases h.last
  | cons t ts => exact Nat.succ_pos _

theorem lexemeAt (h : SameLexemes ts ts') : lexemeAt ts = lexemeAt ts' := by
  have hl := h.lexemes
  cases ts with
  | nil => cases h.last
  | cons t ts =>
    cases ts' with
    | nil => cases hl
    | cons t' ts' => exact (List.cons.inj hl).1

theorem drop (h : SameLexemes ts ts') {n : Nat} (hn : n < ts.length) :
    SameLexemes (ts.drop n) (ts'.drop n) where
  lexemes := by
    simp only [Parser.lexemes, List.map_drop]
    exact congrArg (List.drop n) h.lexemes
  last := by
    have hl := h.last
    have hlen : ¬(Parser.lexemes ts).length ≤ n := by
      simp only [Parser.lexemes, List.length_map]
      omega
    simp only [Parser.lexemes, List.map_drop] at hl hlen ⊢
    rw [List.getLast?_drop, if_neg hlen, hl]

/-- A token that is not the end has another one behind it. -/
theorem one_lt (h : SameLexemes ts ts') (he : Parser.lexemeAt ts ≠ .eof) : 1 < ts.length := by
  have hl := h.last
  match ts with
  | [] => cases hl
  | [t] => exact absurd (Option.some.inj hl) he
  | _ :: _ :: _ => exact Nat.succ_lt_succ (Nat.succ_pos _)

end SameLexemes

/-- The rules end in the same way after the same number of tokens; what they find is related by
`R`. -/
inductive Outcome.Agrees (R : α → β → Prop) (ts ts' : List Token) : Outcome α → Outcome β → Prop
  | found {a : α} {b : β} {n : Nat} : R a b → n < ts.length →
      Agrees R ts ts' (.found a (ts.drop n)) (.found b (ts'.drop n))
  | failed {e : Expectation} {n : Nat} : n < ts.length →
      Agrees R ts ts' (.failed e (ts.drop n)) (.failed e (ts'.drop n))
  | exhausted : Agrees R ts ts' .exhausted .exhausted

/-- The outcomes after some tokens have been taken, seen from the start. -/
theorem Outcome.Agrees.of_drop {n : Nat} {o : Outcome α} {o' : Outcome β}
    (h : Outcome.Agrees R (ts.drop n) (ts'.drop n) o o') : Outcome.Agrees R ts ts' o o' := by
  cases h with
  | found hab hk =>
    rw [List.length_drop] at hk
    rw [List.drop_drop, List.drop_drop]
    exact .found hab (by omega)
  | failed hk =>
    rw [List.length_drop] at hk
    rw [List.drop_drop, List.drop_drop]
    exact .failed (by omega)
  | exhausted => exact .exhausted

def Rule.Agrees (R : α → β → Prop) (r : Rule α) (r' : Rule β) : Prop :=
  ∀ ts ts', SameLexemes ts ts' → Outcome.Agrees R ts ts' (r ts) (r' ts')

namespace Rule.Agrees

theorem pure {a : α} {b : β} (h : R a b) : Rule.Agrees R (pure a) (pure b) :=
  fun _ _ hts => .found (n := 0) h hts.pos

theorem fail (e : Expectation) : Rule.Agrees R (Rule.fail e) (Rule.fail e) :=
  fun _ _ hts => .failed (n := 0) hts.pos

theorem exhausted : Rule.Agrees R Rule.exhausted Rule.exhausted := fun _ _ _ => .exhausted

theorem bind {r : Rule α} {r' : Rule β} {next : α → Rule γ} {next' : β → Rule δ}
    (hr : Rule.Agrees R r r') (hn : ∀ a b, R a b → Rule.Agrees S (next a) (next' b)) :
    Rule.Agrees S (r >>= next) (r' >>= next') := by
  intro ts ts' hts
  have h := hr ts ts' hts
  change Outcome.Agrees S ts ts' (Rule.bind r next ts) (Rule.bind r' next' ts')
  unfold Rule.bind
  generalize r ts = o at h ⊢
  generalize r' ts' = o' at h ⊢
  cases h with
  | found hab hk => exact (hn _ _ hab _ _ (hts.drop hk)).of_drop
  | failed hk => exact .failed hk
  | exhausted => exact .exhausted

theorem peek {next : Lexeme → Rule α} {next' : Lexeme → Rule β}
    (h : ∀ l, Rule.Agrees R (next l) (next' l)) :
    Rule.Agrees R (peek >>= next) (peek >>= next') := by
  intro ts ts' hts
  change Outcome.Agrees R ts ts' (next (lexemeAt ts) ts) (next' (lexemeAt ts') ts')
  rw [hts.lexemeAt]
  exact h _ ts ts' hts

theorem advance : Rule.Agrees (fun _ _ => True) advance advance := by
  intro ts ts' hts
  unfold Parser.advance
  rw [← hts.lexemeAt]
  by_cases he : lexemeAt ts = .eof
  · rw [if_pos he, if_pos he]
    exact .found (n := 0) trivial hts.pos
  · rw [if_neg he, if_neg he, ← List.drop_one, ← List.drop_one]
    exact .found trivial (hts.one_lt he)

theorem orElse {r : Rule α} {r' : Rule β} (hr : Rule.Agrees R r r') (e : Expectation) :
    Rule.Agrees R (r.orElse e) (r'.orElse e) := by
  intro ts ts' hts
  have h := hr ts ts' hts
  have hlen := hts.length
  unfold Rule.orElse
  generalize r ts = o at h ⊢
  generalize r' ts' = o' at h ⊢
  cases h with
  | found hab hk => exact .found hab hk
  | @failed _ n hk =>
    -- Whether the rule failed at its first token does not depend on the list.
    have hiff : (ts'.drop n).length = ts'.length ↔ (ts.drop n).length = ts.length := by
      simp only [List.length_drop]
      omega
    by_cases hn : (ts.drop n).length = ts.length
    · simp only [hn, hiff.mpr hn, if_true]
      exact .failed (n := 0) hts.pos
    · simp only [hn, mt hiff.mp hn, if_false]
      exact .failed hk
  | exhausted => exact .exhausted

theorem expect (l : Lexeme) (e : Expectation) :
    Rule.Agrees (fun _ _ => True) (expect l e) (expect l e) := by
  refine .peek fun l' => ?_
  by_cases h : l' = l
  · rw [if_pos h]
    exact .advance
  · rw [if_neg h]
    exact .fail e

theorem identifier (e : Expectation) : Rule.Agrees Eq (identifier e) (identifier e) := by
  refine .peek fun l => ?_
  split
  · exact .bind .advance fun _ _ _ => .pure rfl
  · exact .fail e

end Rule.Agrees

theorem Outcome.Agrees.map {f : α → γ} {g : β → δ} {o : Outcome α} {o' : Outcome β}
    (h : Outcome.Agrees R ts ts' o o') (hfg : ∀ a b, R a b → S (f a) (g b)) :
    Outcome.Agrees S ts ts' (o.map f) (o'.map g) := by
  cases h with
  | found hab hk => exact .found (hfg _ _ hab) hk
  | failed hk => exact .failed hk
  | exhausted => exact .exhausted

theorem moreParameters_of_ne_comma (h : lexemeAt ts ≠ .comma) :
    moreParameters ts = .found [] ts := by
  rcases ts with _ | ⟨⟨l, s⟩, ts⟩
  · rfl
  · cases l <;> first | rfl | exact absurd rfl h

theorem moreParameters_of_ne_identifier (s : Span) (h : ∀ name, lexemeAt ts ≠ .identifier name) :
    moreParameters (⟨.comma, s⟩ :: ts) = .failed .identifier ts := by
  rcases ts with _ | ⟨⟨l, s⟩, ts⟩
  · rfl
  · cases l <;> first | rfl | exact absurd rfl (h _)

theorem agrees_moreParameters : Rule.Agrees Eq moreParameters moreParameters := by
  intro ts ts' hts
  induction hn : ts.length using Nat.strongRecOn generalizing ts ts' with
  | ind n ih =>
    by_cases hc : lexemeAt ts = .comma
    · have hrest := hts.drop (hts.one_lt (by rw [hc]; simp))
      obtain ⟨s, ts, rfl⟩ := exists_cons_of_lexemeAt hc (by simp)
      obtain ⟨s', ts', rfl⟩ := exists_cons_of_lexemeAt (hts.lexemeAt ▸ hc) (by simp)
      change SameLexemes ts ts' at hrest
      -- Behind the comma both lists have a name, or both fail there.
      by_cases hi : ∃ name, lexemeAt ts = .identifier name
      · obtain ⟨name, hi⟩ := hi
        have hrest₂ := hrest.drop (hrest.one_lt (by rw [hi]; simp))
        obtain ⟨t, ts, rfl⟩ := exists_cons_of_lexemeAt hi (by simp)
        obtain ⟨t', ts', rfl⟩ := exists_cons_of_lexemeAt (hrest.lexemeAt ▸ hi) (by simp)
        have hlt : ts.length < n := by
          rw [← hn]
          simp only [List.length_cons]
          omega
        have h := (ih ts.length hlt ts ts' hrest₂ rfl).map (S := Eq) (f := (name :: ·))
          (g := (name :: ·)) fun _ _ h => congrArg _ h
        exact h.of_drop (n := 2)
      · have hi' : ∀ name, lexemeAt ts' ≠ .identifier name := by
          intro name h
          exact hi ⟨name, hrest.lexemeAt.trans h⟩
        rw [moreParameters_of_ne_identifier s fun name h => hi ⟨name, h⟩,
          moreParameters_of_ne_identifier s' hi']
        exact .failed (n := 1) (Nat.succ_lt_succ hrest.pos)
    · rw [moreParameters_of_ne_comma hc, moreParameters_of_ne_comma (hts.lexemeAt ▸ hc)]
      exact .found (n := 0) rfl hts.pos

theorem agrees_parameters : Rule.Agrees Eq parameters parameters := by
  refine .peek fun l => ?_
  split
  · refine .bind .advance fun _ _ _ => .bind agrees_moreParameters fun names names' h => ?_
    exact .bind (.expect _ _) fun _ _ _ => .pure (by rw [h])
  · exact .bind (.expect _ _) fun _ _ _ => .pure rfl

/-- The trees are the same but for their marks. -/
def SameTree (e e' : Node) : Prop := e.erase = e'.erase

/-- With this fuel every rule agrees with itself, whatever the spans of the tokens. -/
structure Agreement (fuel : Nat) : Prop where
  expression : Rule.Agrees SameTree (expression fuel) (expression fuel)
  binary : ∀ t, Rule.Agrees SameTree (binary fuel t) (binary fuel t)
  operand : ∀ t, Rule.Agrees SameTree (operand fuel t) (operand fuel t)
  chain : ∀ t l l', SameTree l l' → Rule.Agrees SameTree (chain fuel t l) (chain fuel t l')
  comparison : Rule.Agrees SameTree (comparison fuel) (comparison fuel)
  relation : Rule.Agrees SameTree (relation fuel) (relation fuel)
  factor : Rule.Agrees SameTree (factor fuel) (factor fuel)
  power : Rule.Agrees SameTree (power fuel) (power fuel)
  exponents : ∀ b b', SameTree b b' →
    Rule.Agrees SameTree (exponents fuel b) (exponents fuel b')
  call : Rule.Agrees SameTree (call fuel) (call fuel)
  arguments : Rule.Agrees (fun es es' => es.map Expr.erase = es'.map Expr.erase)
    (arguments fuel) (arguments fuel)
  moreArguments : Rule.Agrees (fun es es' => es.map Expr.erase = es'.map Expr.erase)
    (moreArguments fuel) (moreArguments fuel)
  atom : Rule.Agrees SameTree (atom fuel) (atom fuel)
  guarded : Rule.Agrees (fun p p' => SameTree p.1 p'.1 ∧ SameTree p.2 p'.2)
    (guarded fuel) (guarded fuel)
  choice : Rule.Agrees SameTree (choice fuel) (choice fuel)
  arms : Rule.Agrees (fun as as' => as.erase = as'.erase) (arms fuel) (arms fuel)
  count : Rule.Agrees SameTree (count fuel) (count fuel)
  step : Rule.Agrees (fun s s' => s.map Expr.erase = s'.map Expr.erase) (step fuel) (step fuel)
  loop : Rule.Agrees SameTree (loop fuel) (loop fuel)
  function : Rule.Agrees SameTree (function fuel) (function fuel)
  signature : Rule.Agrees (fun p p' => p.1 = p'.1 ∧ SameTree p.2 p'.2)
    (signature fuel) (signature fuel)

theorem SameTree.joined {op : BinaryOp} {l l' r r' : Node} (hl : SameTree l l')
    (hr : SameTree r r') : SameTree (joined op l r) (joined op l' r') := by
  unfold SameTree at *
  rw [Expr.erase_joined, Expr.erase_joined, hl, hr]

theorem SameTree.unary {s s' : Span} {op : UnaryOp} {e e' : Node} (h : SameTree e e') :
    SameTree (.unary s op e) (.unary s' op e') := by
  unfold SameTree at *
  rw [Expr.erase_unary, Expr.erase_unary, h]

theorem SameTree.function {s s' : Span} (x : Option String) {p p' : List String × Node}
    (hp : p.1 = p'.1 ∧ SameTree p.2 p'.2) :
    SameTree (.function s x p.1 p.2) (.function s' x p'.1 p'.2) := by
  obtain ⟨hps, hb⟩ := hp
  unfold SameTree at *
  rw [Expr.erase_function, Expr.erase_function, hps, hb]

section

variable {fuel : Nat} (h : Agreement fuel)
include h

theorem agrees_expression :
    Rule.Agrees SameTree (expression (fuel + 1)) (expression (fuel + 1)) := by
  refine .peek fun l => ?_
  split
  · refine .bind .advance fun s s' _ => .bind (.identifier _) fun x x' hx => ?_
    refine .bind (.expect _ _) fun _ _ _ => .bind h.expression fun e e' he => .pure ?_
    unfold SameTree at *
    rw [Expr.erase_assign, Expr.erase_assign, hx, he]
  · exact .orElse (h.binary .logical) .expression

theorem agrees_binary (t : Tier) :
    Rule.Agrees SameTree (binary (fuel + 1) t) (binary (fuel + 1) t) :=
  .bind (h.operand t) fun l l' hl => h.chain t l l' hl

theorem agrees_operand (t : Tier) :
    Rule.Agrees SameTree (operand (fuel + 1) t) (operand (fuel + 1) t) := by
  cases t with
  | logical => exact h.comparison
  | additive => exact h.binary .multiplicative
  | multiplicative => exact h.factor

theorem agrees_chain (t : Tier) (l l' : Node) (hl : SameTree l l') :
    Rule.Agrees SameTree (chain (fuel + 1) t l) (chain (fuel + 1) t l') := by
  refine .peek fun lex => ?_
  cases t.op? lex with
  | some op =>
    refine .bind .advance fun _ _ _ => .bind (h.operand t) fun r r' hr => ?_
    exact h.chain t _ _ (hl.joined hr)
  | none => exact .pure hl

theorem agrees_comparison :
    Rule.Agrees SameTree (comparison (fuel + 1)) (comparison (fuel + 1)) := by
  refine .peek fun l => ?_
  split
  · exact .bind .advance fun _ _ _ => .bind h.comparison fun e e' he => .pure he.unary
  · exact .orElse h.relation .operand

theorem agrees_relation :
    Rule.Agrees SameTree (relation (fuel + 1)) (relation (fuel + 1)) := by
  refine .bind (h.binary .additive) fun l l' hl => .peek fun lex => ?_
  cases comparisonOp? lex with
  | some op =>
    refine .bind .advance fun _ _ _ => .bind (h.binary .additive) fun r r' hr => ?_
    exact .pure (hl.joined hr)
  | none => exact .pure hl

theorem agrees_factor : Rule.Agrees SameTree (factor (fuel + 1)) (factor (fuel + 1)) := by
  refine .peek fun l => ?_
  cases sign? l with
  | some op => exact .bind .advance fun _ _ _ => .bind h.factor fun e e' he => .pure he.unary
  | none => exact h.power

theorem agrees_power : Rule.Agrees SameTree (power (fuel + 1)) (power (fuel + 1)) :=
  .bind h.call fun b b' hb => h.exponents b b' hb

theorem agrees_exponents (b b' : Node) (hb : SameTree b b') :
    Rule.Agrees SameTree (exponents (fuel + 1) b) (exponents (fuel + 1) b') := by
  refine .peek fun l => ?_
  split
  · refine .bind .advance fun _ _ _ => .bind h.factor fun e e' he => ?_
    exact h.exponents _ _ (hb.joined he)
  · exact .pure hb

theorem agrees_call : Rule.Agrees SameTree (call (fuel + 1)) (call (fuel + 1)) := by
  refine .bind h.atom fun c c' hc => .peek fun l => ?_
  split
  · refine .bind .advance fun _ _ _ => .bind h.arguments fun as as' has => ?_
    refine .bind (.expect _ _) fun s s' _ => .pure ?_
    unfold SameTree at *
    rw [Expr.erase_call, Expr.erase_call, hc, has]
  · exact .pure hc

theorem agrees_arguments :
    Rule.Agrees (fun es es' => es.map Expr.erase = es'.map Expr.erase)
      (arguments (fuel + 1)) (arguments (fuel + 1)) := by
  refine .peek fun l => ?_
  split
  · exact .pure rfl
  · refine .bind (.orElse h.expression .argument) fun e e' he => ?_
    refine .bind h.moreArguments fun es es' hes => .pure ?_
    rw [List.map_cons, List.map_cons, he, hes]

theorem agrees_moreArguments :
    Rule.Agrees (fun es es' => es.map Expr.erase = es'.map Expr.erase)
      (moreArguments (fuel + 1)) (moreArguments (fuel + 1)) := by
  refine .peek fun l => ?_
  split
  · refine .bind .advance fun _ _ _ => .bind h.expression fun e e' he => ?_
    refine .bind h.moreArguments fun es es' hes => .pure ?_
    rw [List.map_cons, List.map_cons, he, hes]
  · exact .pure rfl

theorem agrees_atom : Rule.Agrees SameTree (atom (fuel + 1)) (atom (fuel + 1)) := by
  refine .peek fun l => ?_
  split
  · refine .bind .advance fun _ _ _ => .bind h.expression fun e e' he => ?_
    exact .bind (.expect _ _) fun _ _ _ => .pure he
  · exact h.choice
  · exact h.count
  · exact h.loop
  · exact h.function
  · exact .bind .advance fun _ _ _ => .pure rfl
  · exact .bind .advance fun _ _ _ => .pure rfl
  · exact .bind .advance fun _ _ _ => .pure rfl
  · exact .bind .advance fun _ _ _ => .pure rfl
  · exact .fail .atom

theorem agrees_guarded :
    Rule.Agrees (fun p p' => SameTree p.1 p'.1 ∧ SameTree p.2 p'.2)
      (guarded (fuel + 1)) (guarded (fuel + 1)) := by
  refine .bind h.expression fun c c' hc => .bind (.expect _ _) fun _ _ _ => ?_
  exact .bind h.expression fun b b' hb => .pure ⟨hc, hb⟩

theorem agrees_choice : Rule.Agrees SameTree (choice (fuel + 1)) (choice (fuel + 1)) := by
  refine .bind .advance fun s s' _ => .bind h.guarded fun p p' hp => ?_
  refine .bind h.arms fun as as' has => .pure ?_
  obtain ⟨hc, hb⟩ := hp
  unfold SameTree at *
  rw [Expr.erase_choose, Expr.erase_choose, hc, hb, has]

theorem agrees_arms :
    Rule.Agrees (fun as as' => as.erase = as'.erase) (arms (fuel + 1)) (arms (fuel + 1)) := by
  refine .peek fun l => ?_
  split
  · refine .bind .advance fun _ _ _ => .bind h.guarded fun p p' hp => ?_
    refine .bind h.arms fun as as' has => .pure ?_
    obtain ⟨hc, hb⟩ := hp
    change Arms.elif p.1.erase p.2.erase as.erase = Arms.elif p'.1.erase p'.2.erase as'.erase
    rw [hc, hb, has]
  · refine .bind .advance fun _ _ _ => .bind h.expression fun e e' he => .pure ?_
    exact congrArg Arms.otherwise he
  · exact .pure rfl

theorem agrees_count : Rule.Agrees SameTree (count (fuel + 1)) (count (fuel + 1)) := by
  refine .bind .advance fun s s' _ => .bind (.identifier _) fun x x' hx => ?_
  refine .bind (.expect _ _) fun _ _ _ => .bind h.expression fun a a' ha => ?_
  refine .bind (.expect _ _) fun _ _ _ => .bind h.expression fun b b' hb => ?_
  refine .bind h.step fun by_ by' hby => .bind (.expect _ _) fun _ _ _ => ?_
  refine .bind h.expression fun e e' he => .pure ?_
  unfold SameTree at *
  rw [Expr.erase_count, Expr.erase_count, hx, ha, hb, hby, he]

theorem agrees_step :
    Rule.Agrees (fun s s' => s.map Expr.erase = s'.map Expr.erase)
      (step (fuel + 1)) (step (fuel + 1)) := by
  refine .peek fun l => ?_
  split
  · refine .bind .advance fun _ _ _ => .bind h.expression fun e e' he => .pure ?_
    exact congrArg some he
  · exact .pure rfl

theorem agrees_loop : Rule.Agrees SameTree (loop (fuel + 1)) (loop (fuel + 1)) := by
  refine .bind .advance fun s s' _ => .bind h.guarded fun p p' hp => .pure ?_
  obtain ⟨hc, hb⟩ := hp
  unfold SameTree at *
  rw [Expr.erase_loop, Expr.erase_loop, hc, hb]

theorem agrees_function : Rule.Agrees SameTree (function (fuel + 1)) (function (fuel + 1)) := by
  refine .bind .advance fun s s' _ => .peek fun l => ?_
  split
  · refine .bind .advance fun _ _ _ => .bind (.expect _ _) fun _ _ _ => ?_
    exact .bind h.signature fun p p' hp => .pure (.function _ hp)
  · refine .bind (.expect _ _) fun _ _ _ => ?_
    exact .bind h.signature fun p p' hp => .pure (.function _ hp)

theorem agrees_signature :
    Rule.Agrees (fun p p' => p.1 = p'.1 ∧ SameTree p.2 p'.2)
      (signature (fuel + 1)) (signature (fuel + 1)) := by
  refine .bind agrees_parameters fun ps ps' hps => .bind (.expect _ _) fun _ _ _ => ?_
  exact .bind h.expression fun b b' hb => .pure ⟨hps, hb⟩

end

theorem agreement (fuel : Nat) : Agreement fuel := by
  induction fuel with
  | zero => constructor <;> intros <;> exact .exhausted
  | succ fuel h =>
    exact {
      expression := agrees_expression h
      binary := agrees_binary h
      operand := agrees_operand h
      chain := agrees_chain h
      comparison := agrees_comparison h
      relation := agrees_relation h
      factor := agrees_factor h
      power := agrees_power h
      exponents := agrees_exponents h
      call := agrees_call h
      arguments := agrees_arguments h
      moreArguments := agrees_moreArguments h
      atom := agrees_atom h
      guarded := agrees_guarded h
      choice := agrees_choice h
      arms := agrees_arms h
      count := agrees_count h
      step := agrees_step h
      loop := agrees_loop h
      function := agrees_function h
      signature := agrees_signature h }

theorem agrees_program (fuel : Nat) : Rule.Agrees SameTree (program fuel) (program fuel) := by
  refine .bind (agreement fuel).expression fun e e' he => .peek fun l => ?_
  by_cases hl : l = .eof
  · rw [if_pos hl, if_pos hl]
    exact .pure he
  · rw [if_neg hl, if_neg hl]
    exact .fail .operator

theorem spanAt_drop {n : Nat} (hn : n < ts.length) : spanAt (ts.drop n) = ts[n].span := by
  rw [List.drop_eq_getElem_cons hn]
  rfl

/-- Lists with the same lexemes parse to the same tree, or they fail with the same message at the
same token. -/
theorem parse_sameLexemes (h : SameLexemes ts ts') :
    (∃ e e', parse ts = .ok e ∧ parse ts' = .ok e' ∧ SameTree e e') ∨
    ∃ x n, ∃ (hn : n < ts.length) (hn' : n < ts'.length),
      parse ts = .error { cause := .invalidSyntax x, span := ts[n].span } ∧
      parse ts' = .error { cause := .invalidSyntax x, span := ts'[n].span } := by
  have hp := agrees_program (enoughFuel ts) ts ts' h
  have hfuel : enoughFuel ts = enoughFuel ts' := by
    unfold enoughFuel
    rw [h.length]
  unfold parse
  rw [← hfuel]
  generalize ho : program (enoughFuel ts) ts = o at hp ⊢
  generalize program (enoughFuel ts) ts' = o' at hp ⊢
  cases hp with
  | found he _ => exact .inl ⟨_, _, rfl, rfl, he⟩
  | @failed x n hn =>
    have hn' : n < ts'.length := h.length ▸ hn
    refine .inr ⟨x.text, n, hn, hn', ?_, ?_⟩
    · rw [← spanAt_drop hn]
      rfl
    · rw [← spanAt_drop hn']
      rfl
  | exhausted => exact absurd ho (program_ne_exhausted ts)

end Minibasic.Parser

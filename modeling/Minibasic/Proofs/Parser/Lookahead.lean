import Minibasic.Proofs.Parser.Layout
import Minibasic.Proofs.Parser.Rules

/-!
The parser looks one token ahead. A rule that stops before a token has not seen what stands behind
it, and ends in the same way before any other tokens there.
-/

namespace Minibasic.Parser

variable {α β : Type} {ts rest : List Token}

/-- On the way from `ts` to `rest` the rule sees no more than the first token of `rest`: with other
tokens behind that one it ends as `o` says. -/
def Rule.Sees (r : Rule α) (o : List Token → Outcome α) (ts rest : List Token) : Prop :=
  ∃ read, ts = read ++ rest ∧ ∀ t x y, rest = t :: x → r (read ++ t :: y) = o (t :: y)

/-- Wherever the rule stops, it has not seen the tokens behind the next one. -/
def Rule.Local (r : Rule α) : Prop :=
  ∀ ts, (r ts).Post (fun a rest => r.Sees (.found a) ts rest)
    (fun e rest => r.Sees (.failed e) ts rest) True

/-- The tokens read by a second rule start with the one that the first stopped at. -/
theorem Rule.Sees.append {r : Rule α} {o : List Token → Outcome α} {s : Rule β}
    {o' : List Token → Outcome β} {mid : List Token} (hr : r.Sees o ts mid)
    (hs : s.Sees o' mid rest) :
    ∃ read, ts = read ++ rest ∧ ∀ t x y, rest = t :: x →
      ∃ mid', r (read ++ t :: y) = o mid' ∧ s mid' = o' (t :: y) := by
  obtain ⟨u, rfl, hu⟩ := hr
  obtain ⟨v, rfl, hv⟩ := hs
  refine ⟨u ++ v, (List.append_assoc u v rest).symm, fun t x y hrest => ?_⟩
  refine ⟨v ++ t :: y, ?_, hv t x y hrest⟩
  subst hrest
  rw [List.append_assoc]
  cases v with
  | nil => exact hu t x y rfl
  | cons a v => exact hu a (v ++ t :: x) (v ++ t :: y) rfl

namespace Rule.Local

theorem pure (a : α) : Rule.Local (pure a) := fun _ => ⟨[], rfl, fun _ _ _ _ => rfl⟩

theorem fail (e : Expectation) : Rule.Local (Rule.fail (α := α) e) :=
  fun _ => ⟨[], rfl, fun _ _ _ _ => rfl⟩

theorem exhausted : Rule.Local (Rule.exhausted (α := α)) := fun _ => trivial

theorem bind {r : Rule α} {next : α → Rule β} (hr : r.Local) (hn : ∀ a, (next a).Local) :
    Rule.Local (r >>= next) := by
  have hbind : r >>= next = Rule.bind r next := rfl
  intro ts
  have h := hr ts
  rw [hbind]
  unfold Rule.bind
  cases hts : r ts with
  | found a mid =>
    rw [hts] at h
    -- What the second rule has not seen, the first has not either.
    refine (hn a mid).imp (fun b rest hs => ?_) (fun e rest hs => ?_) id
    all_goals
      obtain ⟨read, he, hread⟩ := Rule.Sees.append h hs
      refine ⟨read, he, fun t x y hrest => ?_⟩
      obtain ⟨mid', hmid, hnext⟩ := hread t x y hrest
      dsimp only
      rw [hmid]
      exact hnext
  | failed e mid =>
    rw [hts] at h
    obtain ⟨read, he, hread⟩ := h
    refine ⟨read, he, fun t x y hrest => ?_⟩
    dsimp only
    rw [hread t x y hrest]
  | exhausted => trivial

theorem peek : Rule.Local Parser.peek := by
  intro ts
  refine ⟨[], rfl, fun t x y hts => ?_⟩
  rw [hts]
  rfl

theorem advance : Rule.Local Parser.advance := by
  intro ts
  cases ts with
  | nil => exact ⟨[], rfl, fun t x y h => by cases h⟩
  | cons t ts =>
    rw [post_advance]
    by_cases he : lexemeAt (t :: ts) = .eof
    · rw [if_pos he]
      refine ⟨[], rfl, fun t' x y h => ?_⟩
      obtain ⟨rfl, rfl⟩ := List.cons.inj h
      have he' : lexemeAt (t :: y) = .eof := he
      simp only [Parser.advance, List.nil_append, he', if_true]
      rfl
    · rw [if_neg he]
      refine ⟨[t], rfl, fun t' x y _ => ?_⟩
      have he' : lexemeAt ([t] ++ t' :: y) ≠ .eof := he
      simp only [Parser.advance, he', if_false]
      rfl

theorem orElse {r : Rule α} (hr : r.Local) (e : Expectation) : (r.orElse e).Local := by
  intro ts
  have h := hr ts
  unfold Rule.orElse
  cases hts : r ts with
  | found a rest =>
    rw [hts] at h
    obtain ⟨read, he, hread⟩ := h
    refine ⟨read, he, fun t x y hrest => ?_⟩
    simp only [hread t x y hrest]
  | failed e' rest =>
    rw [hts] at h
    obtain ⟨read, rfl, hread⟩ := h
    -- Whether nothing was read does not depend on the tokens behind the next one.
    cases read with
    | nil =>
      simp only [List.nil_append, if_true]
      refine ⟨[], rfl, fun t x y hrest => ?_⟩
      have hy := hread t x y hrest
      rw [List.nil_append] at hy ⊢
      simp only [hy, if_true]
    | cons a read =>
      have hlen : ∀ us : List Token, us.length ≠ (a :: read ++ us).length := by
        intro us
        simp only [List.cons_append, List.length_cons, List.length_append]
        omega
      simp only [hlen rest, if_false]
      refine ⟨a :: read, rfl, fun t x y hrest => ?_⟩
      simp only [hread t x y hrest, hlen (t :: y), if_false]
  | exhausted => trivial

end Rule.Local

theorem local_moreParameters : moreParameters.Local := by
  intro ts
  fun_induction moreParameters ts with
  | case1 s name s' ts ih =>
    rw [post_map]
    refine ih.imp (fun names rest h => ?_) (fun e rest h => ?_) id
    all_goals
      obtain ⟨read, rfl, hread⟩ := h
      refine ⟨⟨.comma, s⟩ :: ⟨.identifier name, s'⟩ :: read, rfl, fun t x y hrest => ?_⟩
      simp only [List.cons_append, moreParameters, hread t x y hrest, Outcome.map]
  | case2 s ts hne =>
    refine ⟨[⟨.comma, s⟩], rfl, fun t x y hts => ?_⟩
    refine moreParameters_of_ne_identifier s fun name hl => ?_
    obtain ⟨s', us, he⟩ := exists_cons_of_lexemeAt hl (by simp)
    have ht : t = ⟨.identifier name, s'⟩ := (List.cons.inj he).1
    exact hne name s' x (hts.trans (by rw [ht]))
  | case3 ts _ hne =>
    refine ⟨[], rfl, fun t x y hts => ?_⟩
    refine moreParameters_of_ne_comma fun hl => ?_
    obtain ⟨s, us, he⟩ := exists_cons_of_lexemeAt hl (by simp)
    have ht : t = ⟨.comma, s⟩ := (List.cons.inj he).1
    exact hne s x (hts.trans (by rw [ht]))

theorem Built.isLocal {r r' : Rule α} (h : Built r r') : r.Local := by
  induction h with
  | pure a => exact .pure a
  | fail e => exact .fail e
  | exhausted => exact .exhausted
  | bind _ _ ihr ihn => exact .bind ihr ihn
  | peek => exact .peek
  | advance => exact .advance
  | orElse e _ ih => exact .orElse ih e
  | moreParameters => exact local_moreParameters

theorem Rule.Local.expect (l : Lexeme) (e : Expectation) : (expect l e).Local :=
  (Built.expect l e).isLocal

theorem Rule.Local.identifier (e : Expectation) : (identifier e).Local :=
  (Built.identifier e).isLocal

/-- No rule looks farther than one token ahead. -/
theorem IsRule.isLocal {n : Nat} {r : Nat → Rule α} (h : IsRule n r) (fuel : Nat) :
    (r fuel).Local := (h.built (Nat.le_refl fuel)).isLocal

/-- With this fuel no rule looks farther than one token ahead. -/
structure Looking (fuel : Nat) : Prop where
  expression : (expression fuel).Local
  binary : ∀ t, (binary fuel t).Local
  operand : ∀ t, (operand fuel t).Local
  chain : ∀ t left, (chain fuel t left).Local
  comparison : (comparison fuel).Local
  relation : (relation fuel).Local
  factor : (factor fuel).Local
  power : (power fuel).Local
  exponents : ∀ base, (exponents fuel base).Local
  call : (call fuel).Local
  arguments : (arguments fuel).Local
  moreArguments : (moreArguments fuel).Local
  atom : (atom fuel).Local
  guarded : (guarded fuel).Local
  choice : (choice fuel).Local
  arms : (arms fuel).Local
  count : (count fuel).Local
  step : (step fuel).Local
  loop : (loop fuel).Local
  function : (function fuel).Local
  signature : (signature fuel).Local

theorem looking (fuel : Nat) : Looking fuel where
  expression := IsRule.expression.isLocal fuel
  binary t := (IsRule.binary t).isLocal fuel
  operand t := (IsRule.operand t).isLocal fuel
  chain t left := (IsRule.chain t left).isLocal fuel
  comparison := IsRule.comparison.isLocal fuel
  relation := IsRule.relation.isLocal fuel
  factor := IsRule.factor.isLocal fuel
  power := IsRule.power.isLocal fuel
  exponents base := (IsRule.exponents base).isLocal fuel
  call := IsRule.call.isLocal fuel
  arguments := IsRule.arguments.isLocal fuel
  moreArguments := IsRule.moreArguments.isLocal fuel
  atom := IsRule.atom.isLocal fuel
  guarded := IsRule.guarded.isLocal fuel
  choice := IsRule.choice.isLocal fuel
  arms := IsRule.arms.isLocal fuel
  count := IsRule.count.isLocal fuel
  step := IsRule.step.isLocal fuel
  loop := IsRule.loop.isLocal fuel
  function := IsRule.function.isLocal fuel
  signature := IsRule.signature.isLocal fuel

theorem local_program (fuel : Nat) : (program fuel).Local := IsRule.program.isLocal fuel

end Minibasic.Parser

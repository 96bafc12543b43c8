import Minibasic.Proofs.Parser.Recovery

/-!
Every tree is read back from what it is written as: the forms that are not operations, and by
induction on the tree all of them together.
-/

namespace Minibasic.Parser

open Grammar

variable {fuel : Nat} {ts rest : List Token} {e b c : Tree}

theorem literal_written {l : Lexeme} (hb : bare e = [l]) (hl : level e = .atom)
    (h : ∀ fuel ts, lexemeAt ts = l → (atom (fuel + 1) ts).Returns e ts.tail) : Written e := by
  refine .of_recovers ?_ fun t ht => by
    rw [hl] at ht
    cases t <;> cases ht
  rw [hl, hb]
  intro ts rest hts _ fuel
  obtain ⟨hl, hts⟩ := hts.uncons
  cases fuel with
  | zero => trivial
  | succ fuel =>
    rw [← hts.eq_of_nil]
    exact h fuel ts hl

theorem number_written (n : Number) : Written (.number () n) := by
  cases n with
  | int n =>
    refine literal_written rfl rfl fun fuel ts hl => ?_
    simp only [atom, post_bind, post_peek, hl, post_pure, post_advance, reduceCtorEq, if_false]
    exact ⟨rfl, trivial⟩
  | float x =>
    refine literal_written rfl rfl fun fuel ts hl => ?_
    simp only [atom, post_bind, post_peek, hl, post_pure, post_advance, reduceCtorEq, if_false]
    exact ⟨rfl, trivial⟩

theorem string_written (s : String) : Written (.string () s) := by
  refine literal_written rfl rfl fun fuel ts hl => ?_
  simp only [atom, post_bind, post_peek, hl, post_pure, post_advance, reduceCtorEq, if_false]
  exact ⟨rfl, trivial⟩

theorem var_written (x : String) : Written (.var () x) := by
  refine literal_written rfl rfl fun fuel ts hl => ?_
  simp only [atom, post_bind, post_peek, hl, post_pure, post_advance, reduceCtorEq, if_false]
  exact ⟨rfl, trivial⟩

section Arguments

/-- The arguments are read back between parentheses. -/
def ArgumentsWritten (es : List Tree) : Prop :=
  ∀ ts rest, Takes (bareArguments es) ts rest → lexemeAt rest = .closeParen →
    ∀ fuel, (arguments fuel ts).Yields (fun es' => es'.map Expr.erase = es) rest

/-- The arguments after the first are read back. -/
def MoreWritten (es : List Tree) : Prop :=
  ∀ ts rest, Takes (bareMore es) ts rest → lexemeAt rest = .closeParen →
    ∀ fuel, (moreArguments fuel ts).Yields (fun es' => es'.map Expr.erase = es) rest

theorem ending_of_more {es : List Tree} (h : Takes (bareMore es) ts rest)
    (hr : lexemeAt rest = .closeParen) :
    (ending (lexemeAt ts)).rank ≤ Level.expression.rank := by
  cases es with
  | nil =>
    rw [h.eq_of_nil, hr]
    decide
  | cons e es =>
    rw [h.uncons.1]
    decide

theorem noMore_written : MoreWritten [] := by
  intro ts rest hts hr fuel
  cases fuel with
  | zero => trivial
  | succ fuel =>
    rw [hts.eq_of_nil]
    simp only [moreArguments, post_bind, post_peek, hr, post_pure]
    exact ⟨rfl, trivial⟩

theorem more_written {es : List Tree} (he : Written e) (hes : MoreWritten es) :
    MoreWritten (e :: es) := by
  intro ts rest hts hr fuel
  obtain ⟨hl, hts⟩ := Takes.uncons hts
  obtain ⟨mid, hu, hv⟩ := Takes.split hts
  cases fuel with
  | zero => trivial
  | succ fuel =>
    simp only [moreArguments, post_bind, post_peek, hl, post_pure, post_advance, reduceCtorEq,
      if_false]
    refine (he.recovers .expression _ mid hu (ending_of_more hv hr) fuel).elim fun e' he' => ?_
    refine (hes _ rest hv hr fuel).elim fun es' hes' => ?_
    exact ⟨by rw [List.map_cons, he', hes'], rfl⟩

theorem noArgument_written : ArgumentsWritten [] := by
  intro ts rest hts hr fuel
  cases fuel with
  | zero => trivial
  | succ fuel =>
    rw [hts.eq_of_nil]
    simp only [arguments, post_bind, post_peek, hr, post_pure]
    exact ⟨rfl, trivial⟩

theorem arguments_written {es : List Tree} (he : Written e) (hes : MoreWritten es) :
    ArgumentsWritten (e :: es) := by
  intro ts rest hts hr fuel
  have ho := rank_le_opening_of_takes (l := .expression) hts
  obtain ⟨mid, hu, hv⟩ := Takes.split hts
  cases fuel with
  | zero => trivial
  | succ fuel =>
    simp only [arguments, post_bind, post_peek]
    generalize lexemeAt ts = first at ho
    split
    -- An expression does not start with a closing parenthesis.
    next => exact absurd ho (by decide)
    next =>
      simp only [post_bind, post_orElse, ite_self, post_pure]
      refine (he.recovers .expression _ mid hu (ending_of_more hv hr) fuel).elim fun e' he' => ?_
      refine (hes _ rest hv hr fuel).elim fun es' hes' => ?_
      exact ⟨by rw [List.map_cons, he', hes'], rfl⟩

theorem call_written {as : List Tree} (hc : Written c) (has : ArgumentsWritten as) :
    Written (.call () c as) := by
  refine .of_recovers ?_ fun t ht => by cases t <;> cases ht
  rw [bare_call]
  intro ts rest hts _ fuel
  obtain ⟨mid, hu, hv⟩ := hts.split
  obtain ⟨hm, hv⟩ := hv.uncons
  obtain ⟨last, hv, hr⟩ := hv.split
  obtain ⟨hl, hr⟩ := hr.uncons
  cases fuel with
  | zero => trivial
  | succ fuel =>
    change (call (fuel + 1) ts).Returns _ rest
    simp only [call, post_bind, post_peek]
    refine (hc.recovers .atom ts mid hu (ending _).rank_le_atom fuel).elim fun c' hc' => ?_
    simp only [hm, post_bind, post_pure, post_advance, reduceCtorEq, if_false]
    refine (has _ last hv hl fuel).elim fun as' has' => ?_
    simp only [post_expect, hl, reduceCtorEq, if_true, if_false]
    exact ⟨by rw [Expr.erase_call, hc', has'], hr.eq_of_nil⟩

end Arguments

section Forms

variable {as : Arms Unit}

/-- A form that stands for an atom once there are parentheses around it, is one between them. -/
theorem closed_written (hl : level e = .closed)
    (ho : ∀ z, Level.atom.rank ≤ (opening ((bare e ++ z).headD .eof)).rank)
    (h : ∀ ts rest, Takes (bare e) ts rest → lexemeAt rest = .closeParen →
      ∀ fuel, (atom fuel ts).Returns e rest) : Written e := by
  refine .of_recovers ?_ fun t ht => by
    rw [hl] at ht
    cases t <;> cases ht
  rw [hl]
  intro ts rest hts hend
  -- Only a closing parenthesis leaves a closed form whole.
  have hr := eq_closeParen_of_ending hend
  have hatom : Level.atom.rank ≤ (opening (lexemeAt ts)).rank := by
    rw [hts.lexemeAt_eq]
    exact ho _
  exact returns_loosen (l := .atom) (Nat.zero_le _) hatom hend (h ts rest hts hr)

theorem guarded_yields {mid : List Token} (hc : Written c) (hb : Written b)
    (hu : Takes (write .expression c) ts mid) (hm : lexemeAt mid = .keyword .then_)
    (hv : Takes (write .expression b) mid.tail rest)
    (hr : (ending (lexemeAt rest)).rank ≤ Level.expression.rank) (fuel : Nat) :
    (guarded fuel ts).Yields (fun p => p.1.erase = c ∧ p.2.erase = b) rest := by
  cases fuel with
  | zero => trivial
  | succ fuel =>
    simp only [guarded, post_bind, post_pure]
    refine (hc.recovers .expression ts mid hu (by rw [hm]; decide) fuel).elim fun c' hc' => ?_
    simp only [post_expect, hm, reduceCtorEq, if_true, if_false]
    refine (hb.recovers .expression _ rest hv hr fuel).elim fun b' hb' => ?_
    exact ⟨⟨hc', hb'⟩, rfl⟩

/-- The arms are read back between parentheses. -/
def ArmsWritten (as : Arms Unit) : Prop :=
  ∀ ts rest, Takes (bareArms as) ts rest → lexemeAt rest = .closeParen →
    ∀ fuel, (arms fuel ts).Yields (fun as' => as'.erase = as) rest

theorem ending_of_arms (h : Takes (bareArms as) ts rest) (hr : lexemeAt rest = .closeParen) :
    (ending (lexemeAt ts)).rank ≤ Level.expression.rank := by
  cases as with
  | done =>
    rw [h.eq_of_nil, hr]
    decide
  | otherwise b =>
    rw [h.uncons.1]
    decide
  | elif c b as =>
    rw [h.uncons.1]
    decide

theorem noArm_written : ArmsWritten .done := by
  intro ts rest hts hr fuel
  cases fuel with
  | zero => trivial
  | succ fuel =>
    rw [hts.eq_of_nil]
    simp only [arms, post_bind, post_peek, hr, post_pure]
    exact ⟨rfl, trivial⟩

theorem otherwise_written (hb : Written b) : ArmsWritten (.otherwise b) := by
  intro ts rest hts hr fuel
  obtain ⟨hl, hts⟩ := Takes.uncons hts
  cases fuel with
  | zero => trivial
  | succ fuel =>
    simp only [arms, post_bind, post_peek, hl, post_pure, post_advance, reduceCtorEq, if_false]
    refine (hb.recovers .expression _ rest hts (by rw [hr]; decide) fuel).elim fun b' hb' => ?_
    exact ⟨congrArg Arms.otherwise hb', rfl⟩

theorem elif_written (hc : Written c) (hb : Written b) (has : ArmsWritten as) :
    ArmsWritten (.elif c b as) := by
  intro ts rest hts hr fuel
  obtain ⟨hl, hts⟩ := Takes.uncons hts
  obtain ⟨mid, hu, hts⟩ := Takes.split hts
  obtain ⟨hm, hts⟩ := hts.uncons
  obtain ⟨last, hv, hts⟩ := hts.split
  cases fuel with
  | zero => trivial
  | succ fuel =>
    simp only [arms, post_bind, post_peek, hl, post_pure, post_advance, reduceCtorEq, if_false]
    refine (guarded_yields hc hb hu hm hv (ending_of_arms hts hr) fuel).elim fun case h => ?_
    obtain ⟨hc', hb'⟩ := h
    refine (has _ rest hts hr fuel).elim fun as' has' => ?_
    have he : (Arms.elif case.1 case.2 as').erase = .elif case.1.erase case.2.erase as'.erase := rfl
    exact ⟨by rw [he, hc', hb', has'], rfl⟩

theorem choose_written (hc : Written c) (hb : Written b) (has : ArmsWritten as) :
    Written (.choose () c b as) := by
  refine closed_written rfl (fun _ => Nat.le_refl _) fun ts rest hts hr fuel => ?_
  obtain ⟨hl, hts⟩ := Takes.uncons hts
  obtain ⟨mid, hu, hts⟩ := Takes.split hts
  obtain ⟨hm, hts⟩ := hts.uncons
  obtain ⟨last, hv, hts⟩ := hts.split
  cases fuel with
  | zero => trivial
  | succ fuel =>
    simp only [atom, post_bind, post_peek, hl]
    cases fuel with
    | zero => trivial
    | succ fuel =>
      simp only [choice, post_bind, post_pure, post_advance, hl, reduceCtorEq, if_false]
      refine (guarded_yields hc hb hu hm hv (ending_of_arms hts hr) fuel).elim fun case h => ?_
      obtain ⟨hc', hb'⟩ := h
      refine (has _ rest hts hr fuel).elim fun as' has' => ?_
      exact ⟨by rw [Expr.erase_choose, hc', hb', has'], rfl⟩

theorem loop_written (hc : Written c) (hb : Written b) : Written (.loop () c b) := by
  refine closed_written rfl (fun _ => Nat.le_refl _) fun ts rest hts hr fuel => ?_
  obtain ⟨hl, hts⟩ := Takes.uncons hts
  obtain ⟨mid, hu, hts⟩ := Takes.split hts
  obtain ⟨hm, hv⟩ := hts.uncons
  cases fuel with
  | zero => trivial
  | succ fuel =>
    simp only [atom, post_bind, post_peek, hl]
    cases fuel with
    | zero => trivial
    | succ fuel =>
      simp only [loop, post_bind, post_pure, post_advance, hl, reduceCtorEq, if_false]
      refine (guarded_yields hc hb hu hm hv (by rw [hr]; decide) fuel).elim fun case h => ?_
      obtain ⟨hc', hb'⟩ := h
      exact ⟨by rw [Expr.erase_loop, hc', hb'], rfl⟩

/-- The step is read back before THEN. -/
def StepWritten (s : Option Tree) : Prop :=
  ∀ ts rest, Takes (bareStep s) ts rest → lexemeAt rest = .keyword .then_ →
    ∀ fuel, (step fuel ts).Yields (fun s' => s'.map Expr.erase = s) rest

theorem ending_of_step {s : Option Tree} (h : Takes (bareStep s) ts rest)
    (hr : lexemeAt rest = .keyword .then_) :
    (ending (lexemeAt ts)).rank ≤ Level.expression.rank := by
  cases s with
  | none =>
    rw [h.eq_of_nil, hr]
    decide
  | some e =>
    rw [h.uncons.1]
    decide

theorem noStep_written : StepWritten none := by
  intro ts rest hts hr fuel
  cases fuel with
  | zero => trivial
  | succ fuel =>
    rw [hts.eq_of_nil]
    simp only [step, post_bind, post_peek, hr, post_pure]
    exact ⟨rfl, trivial⟩

theorem step_written (he : Written e) : StepWritten (some e) := by
  intro ts rest hts hr fuel
  obtain ⟨hl, hts⟩ := Takes.uncons hts
  cases fuel with
  | zero => trivial
  | succ fuel =>
    simp only [step, post_bind, post_peek, hl, post_pure, post_advance, reduceCtorEq, if_false]
    refine (he.recovers .expression _ rest hts (by rw [hr]; decide) fuel).elim fun e' he' => ?_
    exact ⟨congrArg some he', rfl⟩

theorem count_written {a : Tree} {s : Option Tree} (x : String) (ha : Written a) (hb : Written b)
    (hs : StepWritten s) (he : Written e) : Written (.count () x a b s e) := by
  refine closed_written rfl (fun _ => Nat.le_refl _) fun ts rest hts hr fuel => ?_
  obtain ⟨hl, hts⟩ := Takes.uncons hts
  obtain ⟨hx, hts⟩ := hts.uncons
  obtain ⟨heq, hts⟩ := hts.uncons
  obtain ⟨p, hu, hts⟩ := Takes.split hts
  obtain ⟨hto, hts⟩ := hts.uncons
  obtain ⟨q, hv, hts⟩ := Takes.split hts
  obtain ⟨r, hw, hts⟩ := hts.split
  obtain ⟨hthen, hz⟩ := hts.uncons
  cases fuel with
  | zero => trivial
  | succ fuel =>
    simp only [atom, post_bind, post_peek, hl]
    cases fuel with
    | zero => trivial
    | succ fuel =>
      simp only [count, identifier, post_bind, post_peek, post_pure, post_advance, post_expect, hl,
        hx, heq, reduceCtorEq, if_true, if_false]
      refine (ha.recovers .expression _ p hu (by rw [hto]; decide) fuel).elim fun a' ha' => ?_
      simp only [hto, if_true]
      refine (hb.recovers .expression _ q hv (ending_of_step hw hthen) fuel).elim fun b' hb' => ?_
      refine (hs _ r hw hthen fuel).elim fun s' hs' => ?_
      simp only [hthen, if_true]
      refine (he.recovers .expression _ rest hz (by rw [hr]; decide) fuel).elim fun e' he' => ?_
      exact ⟨by rw [Expr.erase_count, ha', hb', hs', he'], rfl⟩

theorem moreParameters_eq (ps : List String)
    (hts : Takes (ps.flatMap fun p => [.comma, .identifier p]) ts rest)
    (hr : lexemeAt rest = .closeParen) : moreParameters ts = .found ps rest := by
  induction ps generalizing ts with
  | nil =>
    obtain ⟨s, rest, rfl⟩ := exists_cons_of_lexemeAt hr (by simp)
    rw [hts.eq_of_nil]
    rfl
  | cons p ps ih =>
    obtain ⟨hl, hts⟩ := Takes.uncons hts
    obtain ⟨s, ts, rfl⟩ := exists_cons_of_lexemeAt hl (by simp)
    obtain ⟨hl, hts⟩ := Takes.uncons hts
    obtain ⟨s', ts, rfl⟩ := exists_cons_of_lexemeAt hl (by simp)
    have hmore : moreParameters ts = .found ps rest := ih hts
    change (moreParameters ts).map _ = _
    rw [hmore]
    rfl

theorem parameters_yields (ps : List String) {mid : List Token}
    (hts : Takes (parameterLexemes ps) ts mid) (hm : lexemeAt mid = .closeParen) :
    (parameters ts).Yields (· = ps) mid.tail := by
  simp only [parameters, post_bind, post_peek]
  cases ps with
  | nil =>
    rw [hts.eq_of_nil]
    simp only [hm, post_bind, post_expect, post_pure, reduceCtorEq, if_true, if_false]
    exact ⟨trivial, trivial⟩
  | cons p ps =>
    rw [parameterLexemes_cons] at hts
    obtain ⟨hl, hts⟩ := hts.uncons
    simp only [hl, post_bind, post_expect, post_pure, post_advance, reduceCtorEq, if_false]
    rw [moreParameters_eq ps hts hm]
    change if lexemeAt mid = .closeParen then _ else _
    rw [if_pos hm]
    exact ⟨rfl, rfl⟩

theorem signature_yields (ps : List String) {mid : List Token} (hb : Written b)
    (hu : Takes (parameterLexemes ps) ts mid) (hm : lexemeAt mid = .closeParen)
    (ha : lexemeAt mid.tail = .arrow) (hv : Takes (write .expression b) mid.tail.tail rest)
    (hr : lexemeAt rest = .closeParen) (fuel : Nat) :
    (signature fuel ts).Yields (fun p => p.1 = ps ∧ p.2.erase = b) rest := by
  cases fuel with
  | zero => trivial
  | succ fuel =>
    simp only [signature, post_bind, post_pure]
    apply (parameters_yields ps hu hm).mono
    intro ps' mid' h
    obtain ⟨rfl, rfl⟩ := h
    simp only [post_expect, ha, reduceCtorEq, if_true, if_false]
    refine (hb.recovers .expression _ rest hv (by rw [hr]; decide) fuel).elim fun b' hb' => ?_
    exact ⟨⟨trivial, hb'⟩, rfl⟩

theorem function_written (x : Option String) (ps : List String) (hb : Written b) :
    Written (.function () x ps b) := by
  refine closed_written rfl (fun _ => Nat.le_refl _) fun ts rest hts hr fuel => ?_
  obtain ⟨hl, hts⟩ := Takes.uncons hts
  obtain ⟨p, hx, hts⟩ := Takes.split hts
  obtain ⟨ho, hts⟩ := hts.uncons
  obtain ⟨q, hu, hts⟩ := hts.split
  obtain ⟨hq, hts⟩ := hts.uncons
  obtain ⟨ha, hv⟩ := hts.uncons
  cases fuel with
  | zero => trivial
  | succ fuel =>
    simp only [atom, post_bind, post_peek, hl]
    cases fuel with
    | zero => trivial
    | succ fuel =>
      have hs := signature_yields ps hb hu hq ha hv hr fuel
      simp only [function, post_bind, post_peek, post_advance, hl, reduceCtorEq, if_false]
      cases x with
      | none =>
        rw [hx.eq_of_nil]
        simp only [ho, post_bind, post_pure, post_expect, reduceCtorEq, if_true, if_false]
        apply hs.mono
        intro s rest' h
        obtain ⟨⟨hps, hb'⟩, rfl⟩ := h
        exact ⟨by rw [Expr.erase_function, hps, hb'], rfl⟩
      | some x =>
        obtain ⟨hx, hp⟩ := Takes.uncons hx
        rw [← hp.eq_of_nil] at ho hs
        simp only [hx, ho, post_bind, post_pure, post_advance, post_expect, reduceCtorEq, if_true,
          if_false]
        apply hs.mono
        intro s rest' h
        obtain ⟨⟨hps, hb'⟩, rfl⟩ := h
        exact ⟨by rw [Expr.erase_function, hps, hb'], rfl⟩

end Forms

mutual

theorem written : ∀ e : Tree, Written e
  | .number () n => number_written n
  | .string () s => string_written s
  | .var () x => var_written x
  | .assign () x e => assign_written x (written e)
  | .binary () op l r => binary_written op (written l) (written r)
  | .unary () op e => unary_written op (written e)
  | .choose () c b as => choose_written (written c) (written b) (written_arms as)
  | .count () x a b s e =>
    count_written x (written a) (written b) (written_step s) (written e)
  | .loop () c b => loop_written (written c) (written b)
  | .function () x ps b => function_written x ps (written b)
  | .call () c as => call_written (written c) (written_arguments as)

theorem written_arms : ∀ as : Arms Unit, ArmsWritten as
  | .done => noArm_written
  | .otherwise b => otherwise_written (written b)
  | .elif c b as => elif_written (written c) (written b) (written_arms as)

theorem written_step : ∀ s : Option Tree, StepWritten s
  | none => noStep_written
  | some e => step_written (written e)

theorem written_arguments : ∀ es : List Tree, ArgumentsWritten es
  | [] => noArgument_written
  | e :: es => arguments_written (written e) (written_more es)

theorem written_more : ∀ es : List Tree, MoreWritten es
  | [] => noMore_written
  | e :: es => more_written (written e) (written_more es)

end

theorem program_returns {stop : Token} (hts : Takes (write .expression e) ts [stop])
    (hstop : stop.lexeme = .eof) (fuel : Nat) : (program fuel ts).Returns e [stop] := by
  have hend : (ending (lexemeAt [stop])).rank ≤ Level.expression.rank := by
    change (ending stop.lexeme).rank ≤ _
    rw [hstop]
    decide
  simp only [program, post_bind, post_peek]
  refine ((written e).recovers .expression ts [stop] hts hend fuel).elim fun e' he => ?_
  have hl : lexemeAt [stop] = .eof := hstop
  rw [if_pos hl]
  exact ⟨he, rfl⟩

/-- The parser reads a tree back from what it is written as, whatever the places of the tokens. -/
theorem parse_write (e : Tree) (ts : List Token)
    (hts : lexemes ts = write .expression e ++ [.eof]) :
    ∃ e', parse ts = .ok e' ∧ e'.erase = e := by
  obtain ⟨read, last, rfl, hw, hlast⟩ := List.map_eq_append_iff.mp hts
  obtain ⟨stop, rfl, hstop⟩ := List.map_eq_singleton_iff.mp hlast
  have h := program_returns ⟨read, rfl, hw⟩ hstop (enoughFuel (read ++ [stop]))
  have hx := program_ne_exhausted (read ++ [stop])
  unfold parse
  cases hp : program (enoughFuel (read ++ [stop])) (read ++ [stop]) with
  | found e' rest =>
    rw [hp] at h
    exact ⟨e', rfl, h.1⟩
  | failed e' rest =>
    rw [hp] at h
    exact False.elim h
  | exhausted => exact absurd hp hx

/-- The tree of `(-a) ^ -b * (c == d)(NOT e < 1)` is read back from these lexemes. -/
theorem parse_write_operations :
    let e : Tree := .binary () .mul
      (.binary () .pow (.unary () .minus (.var () "a")) (.unary () .minus (.var () "b")))
      (.call () (.binary () .eq (.var () "c") (.var () "d"))
        [.unary () .not (.binary () .lt (.var () "e") (.number () (.int 1)))])
    let ts : List Token := [.openParen, .minus, .identifier "a", .closeParen, .caret, .minus,
      .identifier "b", .star, .openParen, .identifier "c", .equalEqual, .identifier "d",
      .closeParen, .openParen, .keyword .not, .identifier "e", .less, .int 1, .closeParen,
      .eof].map (⟨·, default⟩)
    lexemes ts = write .expression e ++ [.eof] ∧ ∃ e', parse ts = .ok e' ∧ e'.erase = e := by
  intro e ts
  have hts : lexemes ts = write .expression e ++ [.eof] := by decide
  exact ⟨hts, parse_write e ts hts⟩

end Minibasic.Parser

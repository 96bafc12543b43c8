import Minibasic.Proofs.Evaluation.Exact
import Minibasic.Proofs.Parser.Nesting

/-!
Where values come from. Each value bears the span of the node that it is the result of and the frame
of its evaluation. Only an assignment and a branch that is taken hand on the result of another node,
and only a variable that is read hands on the frame of another value.
-/

namespace Minibasic

/-- The result is that of another node: an assignment or a choice. -/
def Expr.handsOn {α : Type} : Expr α → Bool
  | .assign _ _ _ | .choose _ _ _ _ => true
  | _ => false

/-- In the tree of a text, nodes lie in the text, and each around its children. -/
theorem Parser.placed_of_parse_ok {s : Source} {ts : List Token} {program : Node}
    (hts : Scan.tokens s = .ok ts) (he : parse ts = .ok program) :
    ∀ n ∈ program.nodes, n.mark.start.source = s ∧ ∀ c ∈ n.children, n.mark.Encloses c.mark := by
  intro n hn
  obtain ⟨pieces, last, htiling, hpieces⟩ := ((Scan.tokens_eq_iff s _).mp hts).tiling ts rfl rfl
  obtain ⟨rest, read, hread, -, hlaid⟩ := lays_of_parse_ok he
  have hordered : Ordered ts := {
    nonempty := by
      rw [hpieces, List.forall_mem_append, List.forall_mem_singleton]
      exact ⟨htiling.ordered_pieces.nonempty, Nat.lt_succ_self _⟩
    before := by
      rw [hpieces]
      exact List.pairwise_map.mpr htiling.ordered }
  have hsource : ∀ t ∈ ts, t.span.start.source = s := by
    rw [hpieces, List.forall_mem_append, List.forall_mem_singleton]
    refine ⟨fun t ht => ?_, rfl⟩
    obtain ⟨before, -, -, -, hstart, -⟩ := htiling.exists_past ht
    rw [hstart]
    rfl
  subst hread
  have hneat := (hlaid hordered.of_append.1).neat program List.mem_cons_self n hn
  obtain ⟨t, ht, hstart⟩ := hneat.ofTokens.start
  exact ⟨hstart ▸ hsource t (List.mem_append_left rest ht), hneat.encloses⟩

namespace Interpreter

/-- A choice that is made in `i` comes to one of its branches in `j`, or to none of them. -/
inductive Comes : Expr Span → Expr Span → Arms Span → Interpreter → Option (Expr Span) →
    Interpreter → Prop
  | body : Evaluates test i (.ok v) j → v.datum.isTrue → Comes test body as i (some body) j
  | otherwise : Evaluates test i (.ok v) j → ¬v.datum.isTrue →
      Comes test body (.otherwise other) i (some other) j
  | done : Evaluates test i (.ok v) j → ¬v.datum.isTrue → Comes test body .done i none j
  | elif : Evaluates test i (.ok v) j → ¬v.datum.isTrue → Comes test' body' as j branch k →
      Comes test body (.elif test' body' as) i branch k

/-- The node whose result an expression evaluated in `i` has, with the state that this node is
evaluated in. -/
inductive ResultNode : Expr Span → Interpreter → Expr Span → Interpreter → Prop
  | own : ¬e.handsOn → ResultNode e i e i
  | assign : ResultNode e i n j → ResultNode (.assign m x e) i n j
  | branch : Comes test body as i (some b) j → ResultNode b j n k →
      ResultNode (.choose m test body as) i n k
  | noBranch : Comes test body as i none j →
      ResultNode (.choose m test body as) i (.choose m test body as) i

/-- What the result `v` of the node `n` bears, if it is evaluated in `j` and the frame `c`: the span
of the node and that frame. A variable has the frame of the value that is bound to it. -/
def Originates (n : Expr Span) (j : Interpreter) (c : Context) (v : Value) : Prop :=
  v.span = some n.mark ∧
    match n with
    | .var _ x => ∃ w, j.store.lookup j.environment x = some w ∧ v.context = w.context
    | _ => v.context = some c

variable {α : Type} {fuel : Nat} {i i' j k : Interpreter} {m s : Span} {v : Value}
  {e n test body : Expr Span} {as : Arms Span}

/-! ### Choices and result nodes -/

theorem Evaluates.unique {v' : Value} (h : Evaluates e i (.ok v) j)
    (h' : Evaluates e i (.ok v') k) :
    v' = v ∧ k = j := by
  obtain ⟨hv, hk⟩ := (h.iff _ _).mp h'
  exact ⟨Except.ok.inj hv, hk⟩

/-- A choice comes to one branch only. -/
theorem Comes.unique {b b' : Option (Expr Span)} (h : Comes test body as i b j)
    (h' : Comes test body as i b' k) : b' = b ∧ k = j := by
  induction h generalizing k with
  | body ht hv =>
    cases h' with
    | body ht' =>
      obtain ⟨-, rfl⟩ := ht.unique ht'
      exact ⟨rfl, rfl⟩
    | otherwise ht' hv' | done ht' hv' | elif ht' hv' =>
      obtain ⟨rfl, -⟩ := ht.unique ht'
      exact absurd hv hv'
  | otherwise ht hv =>
    cases h' with
    | body ht' hv' =>
      obtain ⟨rfl, -⟩ := ht.unique ht'
      exact absurd hv' hv
    | otherwise ht' =>
      obtain ⟨-, rfl⟩ := ht.unique ht'
      exact ⟨rfl, rfl⟩
  | done ht hv =>
    cases h' with
    | body ht' hv' =>
      obtain ⟨rfl, -⟩ := ht.unique ht'
      exact absurd hv' hv
    | done ht' =>
      obtain ⟨-, rfl⟩ := ht.unique ht'
      exact ⟨rfl, rfl⟩
  | elif ht hv _ ih =>
    cases h' with
    | body ht' hv' =>
      obtain ⟨rfl, -⟩ := ht.unique ht'
      exact absurd hv' hv
    | elif ht' _ h' =>
      obtain ⟨-, rfl⟩ := ht.unique ht'
      exact ih h'

theorem ResultNode.unique {n' : Expr Span} (h : ResultNode e i n j) (h' : ResultNode e i n' k) :
    n' = n ∧ k = j := by
  induction h with
  | own he =>
    cases h' with
    | own => exact ⟨rfl, rfl⟩
    | assign | branch | noBranch => exact absurd rfl he
  | assign _ ih =>
    cases h' with
    | own he => exact absurd rfl he
    | assign h' => exact ih h'
  | branch hc _ ih =>
    cases h' with
    | own he => exact absurd rfl he
    | branch hc' h' =>
      obtain ⟨hb, rfl⟩ := hc.unique hc'
      cases hb
      exact ih h'
    | noBranch hc' => cases (hc.unique hc').1
  | noBranch hc =>
    cases h' with
    | own he => exact absurd rfl he
    | branch hc' h' => cases (hc.unique hc').1
    | noBranch => exact ⟨rfl, rfl⟩

theorem Comes.mem_children {b : Option (Expr Span)} (h : Comes test body as i b j) :
    ∀ c ∈ b, c ∈ body :: as.children := by
  induction h with
  | body => simp
  | otherwise => simp [Arms.children]
  | done => simp
  | elif _ _ _ ih =>
    intro c hc
    exact List.mem_cons_of_mem _ (List.mem_cons_of_mem _ (ih c hc))

theorem Comes.context {b : Option (Expr Span)} (h : Comes test body as i b j) :
    j.context = i.context := by
  induction h with
  | body ht | otherwise ht | done ht => exact context_of_eval ht.choose_spec
  | elif ht _ _ ih => exact ih.trans (context_of_eval ht.choose_spec)

/-- The span of a result node lies inside of that of the expression where spans nest. -/
theorem ResultNode.encloses (h : ResultNode e i n j)
    (hnest : ∀ a ∈ e.nodes, ∀ c ∈ a.children, a.mark.Encloses c.mark) :
    n ∈ e.nodes ∧ e.mark.Encloses n.mark := by
  have hchild {e c n : Expr Span} (hnest : ∀ a ∈ e.nodes, ∀ c ∈ a.children, a.mark.Encloses c.mark)
      (hc : c ∈ e.children)
      (h : (∀ a ∈ c.nodes, ∀ c ∈ a.children, a.mark.Encloses c.mark) →
        n ∈ c.nodes ∧ c.mark.Encloses n.mark) : n ∈ e.nodes ∧ e.mark.Encloses n.mark := by
    have hsub := Expr.nodes_subset_of_child hc
    obtain ⟨hn, hcn⟩ := h fun a ha => hnest a (hsub ha)
    have hec := hnest e e.mem_nodes_self c hc
    exact ⟨hsub hn, Nat.le_trans hec.1 hcn.1, Nat.le_trans hcn.2 hec.2⟩
  have hself (e : Expr Span) : e ∈ e.nodes ∧ e.mark.Encloses e.mark :=
    ⟨e.mem_nodes_self, Nat.le_refl _, Nat.le_refl _⟩
  induction h with
  | own | noBranch => exact hself _
  | assign _ ih => exact hchild hnest List.mem_cons_self ih
  | branch hc _ ih =>
    exact hchild hnest (List.mem_cons_of_mem _ (hc.mem_children _ rfl)) ih

/-! ### Tags -/

/-- Any value that the computation gives has the span `s` and the frame that the computation ends
in. -/
def Tags (s : Span) (run : Eval Value) : Prop :=
  ∀ i v i', run i = some (.ok v, i') → v.span = some s ∧ v.context = some i'.context

namespace Tags

theorem bind {run : Eval α} {next : α → Eval Value} (h : ∀ a, Tags s (next a)) :
    Tags s (run >>= next) := by
  intro i v i' hv
  obtain ⟨a, j, -, hnext⟩ := exists_of_bind hv
  exact h a j v i' hnext

theorem fail (c : Cause) (t : Span) : Tags s (fail c t) := nofun

theorem tag (d : Datum) : Tags s (tag s d) := by
  intro i v i' hv
  cases hv
  exact ⟨rfl, rfl⟩

theorem tagResult (t : Span) (r : Except Cause Datum) : Tags s (tagResult s t r) := by
  unfold Interpreter.tagResult
  split
  · exact tag _
  · exact fail _ _
  · exact fail _ _

theorem outOfFuel : Tags s outOfFuel := nofun

/-- Any node that is neither a variable nor hands on the result of another tags its own. -/
theorem eval (fuel : Nat) (he : ¬e.handsOn) (hvar : ∀ m x, e ≠ .var m x) :
    Tags e.mark (eval fuel e) := by
  cases fuel with
  | zero => exact outOfFuel
  | succ fuel =>
    cases e with
    | number m n => exact tag _
    | string m t => exact tag _
    | var m x => exact absurd rfl (hvar m x)
    | assign | choose => exact absurd rfl he
    | binary m op l r => exact bind fun _ => bind fun _ => tagResult _ _
    | unary m op e => exact bind fun _ => tagResult _ _
    | count m x start stop step body =>
      exact bind fun _ => bind fun _ => bind fun _ => bind fun _ => bind fun _ => bind fun _ => tag _
    | loop m test body => exact bind fun _ => tag _
    | function m x ps body =>
      intro i v i' hv
      cases x <;> cases hv <;> exact ⟨rfl, rfl⟩
    | call m callee args =>
      refine bind fun f => bind fun vs => ?_
      split
      · exact bind fun _ => tag _
      · exact fail _ _

end Tags

/-! ### Results -/

/-- Once the first condition does not hold, the arms of a choice have the result of the branch that
the choice comes to, or one of their own. -/
theorem comes_of_evalArms {t : Value} (ht : Evaluates test i (.ok t) j) (hf : ¬t.datum.isTrue)
    (body : Expr Span) (h : evalArms fuel m as j = some (.ok v, i')) :
    ∃ b k, Comes test body as i b k ∧
      (∀ c ∈ b, ∃ less < fuel, eval less c k = some (.ok v, i')) ∧
      (b = none → v.span = some m ∧ v.context = some k.context) := by
  induction fuel generalizing test body as i j t with
  | zero => cases h
  | succ fuel ih =>
    cases as with
    | done =>
      cases h
      exact ⟨none, i', .done ht hf, nofun, fun _ => ⟨rfl, rfl⟩⟩
    | otherwise other =>
      refine ⟨some other, j, .otherwise ht hf, fun c hc => ?_, nofun⟩
      obtain rfl := Option.some.inj hc
      exact ⟨fuel, Nat.lt_succ_self fuel, h⟩
    | elif test' body' as =>
      obtain ⟨t', j', ht', hnext⟩ := exists_of_bind h
      split at hnext
      · refine ⟨some body', j', .elif ht hf (.body ⟨fuel, ht'⟩ ‹_›), fun c hc => ?_, nofun⟩
        obtain rfl := Option.some.inj hc
        exact ⟨fuel, Nat.lt_succ_self fuel, hnext⟩
      · obtain ⟨b, k, hcomes, hsome, hnone⟩ := ih ⟨fuel, ht'⟩ ‹_› body' hnext
        refine ⟨b, k, .elif ht hf hcomes, fun c hc => ?_, hnone⟩
        obtain ⟨less, hless, hc⟩ := hsome c hc
        exact ⟨less, Nat.lt_succ_of_lt hless, hc⟩

/-- A node that has a result of its own is where this result comes from. -/
theorem originates_of_own (he : ¬e.handsOn) (h : eval fuel e i = some (.ok v, i')) :
    Originates e i i.context v := by
  by_cases hvar : ∃ m x, e = .var m x
  · obtain ⟨m, x, rfl⟩ := hvar
    cases fuel with
    | zero => cases h
    | succ fuel =>
      obtain ⟨found, j, hfound, hnext⟩ := exists_of_bind h
      cases found with
      | none => cases hnext
      | some w =>
        cases hnext
        exact ⟨rfl, w, Except.ok.inj (Prod.mk.inj (Option.some.inj hfound)).1, rfl⟩
  · simp only [not_exists] at hvar
    obtain ⟨hspan, hcontext⟩ := Tags.eval fuel he hvar i v i' h
    rw [context_of_eval h] at hcontext
    refine ⟨hspan, ?_⟩
    split
    · exact absurd rfl (hvar _ _)
    · exact hcontext

/-- Results come from result nodes. -/
theorem exists_resultNode (h : eval fuel e i = some (.ok v, i')) :
    ∃ n j, ResultNode e i n j ∧ Originates n j i.context v := by
  induction fuel using Nat.strong_induction_on generalizing e i v i' with
  | _ fuel ih =>
    by_cases he : e.handsOn
    · cases fuel with
      | zero => cases h
      | succ fuel =>
        cases e with
        | assign m x e =>
          obtain ⟨w, j, hw, hnext⟩ := exists_of_bind h
          cases hnext
          obtain ⟨n, k, hn, horigin⟩ := ih fuel (Nat.lt_succ_self fuel) hw
          exact ⟨n, k, .assign hn, horigin⟩
        | choose m test body as =>
          obtain ⟨t, j, ht, hnext⟩ := exists_of_bind h
          have hbranch {b : Expr Span} {less : Nat} {k : Interpreter}
              (hc : Comes test body as i (some b) k) (hless : less < fuel + 1)
              (hb : eval less b k = some (.ok v, i')) :
              ∃ n l, ResultNode (.choose m test body as) i n l ∧ Originates n l i.context v := by
            obtain ⟨n, l, hn, horigin⟩ := ih less hless hb
            exact ⟨n, l, .branch hc hn, hc.context ▸ horigin⟩
          split at hnext
          · exact hbranch (.body ⟨fuel, ht⟩ ‹_›) (Nat.lt_succ_self fuel) hnext
          · obtain ⟨b, k, hc, hsome, hnone⟩ := comes_of_evalArms ⟨fuel, ht⟩ ‹_› body hnext
            cases b with
            | some b =>
              obtain ⟨less, hless, hb⟩ := hsome b rfl
              exact hbranch hc (Nat.lt_succ_of_lt hless) hb
            | none =>
              obtain ⟨hspan, hcontext⟩ := hnone rfl
              exact ⟨_, i, .noBranch hc, hspan, hc.context ▸ hcontext⟩
        | _ => cases he
    · exact ⟨e, i, .own he, originates_of_own he h⟩

/-- A value tells where it was produced. It has the span of the one node whose result it is, and the
frame of the evaluation, or that of the value that this node reads from a variable. In the tree of a
text its span lies inside of that of the node evaluated. What a call gives has the span of the call,
and the frame of the caller. -/
theorem value_tagged :
    (∀ fuel e i v i', eval fuel e i = some (.ok v, i') →
      ∃ n j, ResultNode e i n j ∧ (∀ n' j', ResultNode e i n' j' → n' = n ∧ j' = j) ∧
        Originates n j i.context v) ∧
    (∀ s ts program e, Scan.tokens s = .ok ts → parse ts = .ok program → e ∈ program.nodes →
      ∀ fuel i v i', eval fuel e i = some (.ok v, i') →
        ∃ t, v.span = some t ∧ t.start.source = s ∧ e.mark.Encloses t) ∧
    ∀ fuel m callee args i v i', eval fuel (.call m callee args) i = some (.ok v, i') →
      v.span = some m ∧ v.context = some i.context := by
  refine ⟨?_, ?_, ?_⟩
  · intro fuel e i v i' h
    obtain ⟨n, j, hn, horigin⟩ := exists_resultNode h
    exact ⟨n, j, hn, fun _ _ hn' => hn.unique hn', horigin⟩
  · intro s ts program e hts hparse he fuel i v i' h
    have hplaced := Parser.placed_of_parse_ok hts hparse
    obtain ⟨n, j, hn, hspan, -⟩ := exists_resultNode h
    have hsub := Expr.nodes_subset_of_mem he
    obtain ⟨hmem, hencloses⟩ := hn.encloses fun a ha => (hplaced a (hsub ha)).2
    exact ⟨n.mark, hspan, (hplaced n (hsub hmem)).1, hencloses⟩
  · intro fuel m callee args i v i' h
    obtain ⟨hspan, hcontext⟩ := Tags.eval (e := .call m callee args) fuel nofun nofun i v i' h
    rw [context_of_eval h] at hcontext
    exact ⟨hspan, hcontext⟩

/-- The value of `IF 0 THEN 1 ELSE VAR y = (2)` has the span of the number two, which lies inside of
that of the whole, and a call gives its own span to what is read in the function. -/
theorem value_tagged_choice :
    (∃ ts program v i', Scan.tokens ⟨"a", "IF 0 THEN 1 ELSE VAR y = (2)"⟩ = .ok ts ∧
      parse ts = .ok program ∧ eval 5 program (global []) = some (.ok v, i') ∧
      v.span.map Span.text = some "2" ∧
      (∃ n j, ResultNode program (global []) n j ∧
        (∀ n' j', ResultNode program (global []) n' j' → n' = n ∧ j' = j) ∧
        Originates n j rootContext v) ∧
      ∃ t, v.span = some t ∧ t.start.source = ⟨"a", "IF 0 THEN 1 ELSE VAR y = (2)"⟩ ∧
        program.mark.Encloses t) ∧
    let identity : Expr Span := .function default none ["b"] (.var default "b")
    ∃ v i', eval 5 (.call default identity [.number default (.int 2)]) (global []) =
        some (.ok v, i') ∧
      v.span = some default ∧ v.context = some rootContext := by
  constructor
  · have hread : ((Scan.tokens ⟨"a", "IF 0 THEN 1 ELSE VAR y = (2)"⟩).toOption.bind fun ts =>
        (parse ts).toOption.map fun program => (eval 5 program (global [])).map fun p =>
          p.1.toOption.map fun v => v.span.map Span.text) = some (some (some (some "2"))) := by
      decide +kernel
    obtain ⟨ts, program, hts, hparse, heval⟩ := Parser.exists_of_read hread
    obtain ⟨⟨r, i'⟩, he, hr⟩ := Option.map_eq_some_iff.mp heval
    obtain ⟨v, hv, htext⟩ := Option.map_eq_some_iff.mp hr
    obtain rfl : r = .ok v := Parser.eq_ok_of_toOption hv
    exact ⟨ts, program, v, i', hts, hparse, he, htext, value_tagged.1 5 program _ v i' he,
      value_tagged.2.1 _ ts program program hts hparse program.mem_nodes_self 5 _ v i' he⟩
  · intro identity
    have hcall : ∃ v i', eval 5 (.call default identity [.number default (.int 2)]) (global []) =
        some (.ok v, i') := ⟨_, _, rfl⟩
    obtain ⟨v, i', hcall⟩ := hcall
    exact ⟨v, i', hcall, value_tagged.2.2 5 default identity _ _ v i' hcall⟩

end Interpreter

end Minibasic

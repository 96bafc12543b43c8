import Minibasic.Proofs.Evaluation.Output
import Minibasic.Proofs.Evaluation.Tasks
import Minibasic.Proofs.Expr.Children
import Minibasic.Proofs.Number.Counters

/-!
Counting loops. A loop runs its body once for each of its counters, which its bounds alone
determine, and stops early only if the body fails. So nothing but a loop with a condition or a call
can keep an evaluation from coming to an end.
-/

namespace Minibasic

/-- The expression is a loop with a condition or a call. -/
def Expr.isOpenEnded {α : Type} : Expr α → Bool
  | .loop _ _ _ | .call _ _ _ => true
  | _ => false

namespace Interpreter

variable {α β : Type}

/-- With enough fuel the evaluation of `e` from `i` comes to an end in `j`, with the result `r`. -/
def Evaluates (e : Expr Span) (i : Interpreter) (r : Except Diagnostic Value) (j : Interpreter) :
    Prop :=
  ∃ fuel, eval fuel e i = some (r, j)

/-- The step of a counting loop, evaluated once from `i` to `j`, is an integer other than zero. It
is one if it is not written. -/
inductive StepIs : Option (Expr Span) → Interpreter → Int64 → Interpreter → Prop
  | unwritten {i : Interpreter} : StepIs none i 1 i
  | written {e : Expr Span} {c : Value} {by_ : Int64} {i j : Interpreter} :
      Evaluates e i (.ok c) j → c.bound? = some by_ → by_ ≠ 0 → StepIs (some e) i by_ j

/-- The start, the stop and the step of a counting loop, evaluated once each and in this order from
`i` to `l`, are integers. -/
inductive Bounds (start stop : Expr Span) (step : Option (Expr Span)) (i : Interpreter)
    (from_ to_ by_ : Int64) (l : Interpreter) : Prop
  | intro {a b : Value} {j k : Interpreter} :
      Evaluates start i (.ok a) j → a.bound? = some from_ →
      Evaluates stop j (.ok b) k → b.bound? = some to_ →
      StepIs step k by_ l → Bounds start stop step i from_ to_ by_ l

/-- The body of a loop at `m`, evaluated for one counter after the other, each time as soon as the
counter is bound to `x` in the innermost scope. A body that fails ends it with its error. -/
inductive Rounds (m : Span) (x : String) (body : Expr Span) :
    List Int64 → Interpreter → Except Diagnostic Unit → Interpreter → Prop
  | done {i : Interpreter} : Rounds m x body [] i (.ok ()) i
  | round {n : Int64} {ns : List Int64} {v : Value} {i j k : Interpreter}
      {r : Except Diagnostic Unit} :
      Evaluates body (i.counted m x n) (.ok v) j → Rounds m x body ns j r k →
      Rounds m x body (n :: ns) i r k
  | failure {n : Int64} {ns : List Int64} {d : Diagnostic} {i j : Interpreter} :
      Evaluates body (i.counted m x n) (.error d) j → Rounds m x body (n :: ns) i (.error d) j

section Rounds

variable {m : Span} {x : String} {body : Expr Span} {step stop counter : Int64}
  {i j : Interpreter} {r : Except Diagnostic Unit}

theorem countFrom_of_not_within (h : ¬within step stop counter) (fuel : Nat) :
    countFrom (fuel + 1) m x step stop body counter i = some (.ok (), i) := by
  rw [countFrom, if_neg h]
  rfl

/-- The loop after one round. -/
theorem countFrom_of_within (h : within step stop counter) (fuel : Nat) :
    countFrom (fuel + 1) m x step stop body counter i =
      match eval fuel body (i.counted m x counter) with
      | some (.ok _, j) =>
        match int64? (counter.toInt + step.toInt) with
        | some next => countFrom fuel m x step stop body next j
        | none => some (.ok (), j)
      | some (.error d, j) => some (.error d, j)
      | none => none := by
  rw [countFrom, if_pos h, bind_apply]
  change (eval fuel body >>= _) (i.counted m x counter) = _
  rw [bind_apply]
  cases hbody : eval fuel body (i.counted m x counter) with
  | none => rfl
  | some p =>
    obtain ⟨r, j⟩ := p
    cases r with
    | error d => rfl
    | ok v => cases int64? (counter.toInt + step.toInt) <;> rfl

/-- The counters of a loop that goes on after `counter`. -/
theorem map_eq_counters_cons {ns : List Int64} (h : within step stop counter)
    (hns : ns.map Int64.toInt = counters counter.toInt stop.toInt step.toInt) :
    ∃ ns', ns = counter :: ns' ∧
      ns'.map Int64.toInt = counters (counter.toInt + step.toInt) stop.toInt step.toInt := by
  rw [counters_of_within h] at hns
  obtain ⟨n, ns', rfl, hn, hns'⟩ := List.map_eq_cons_iff.mp hns
  exact ⟨ns', by rw [Int64.toInt_inj.mp hn], hns'⟩

theorem map_eq_counters_nil {ns : List Int64} (h : ¬within step stop counter)
    (hns : ns.map Int64.toInt = counters counter.toInt stop.toInt step.toInt) : ns = [] := by
  rw [counters_of_not_within h] at hns
  exact List.map_eq_nil_iff.mp hns

/-- A loop that comes to an end has gone through its counters. -/
theorem rounds_of_countFrom {ns : List Int64} {fuel : Nat}
    (hns : ns.map Int64.toInt = counters counter.toInt stop.toInt step.toInt)
    (h : countFrom fuel m x step stop body counter i = some (r, j)) : Rounds m x body ns i r j := by
  induction fuel generalizing counter i ns with
  | zero => cases h
  | succ fuel ih =>
    by_cases hw : within step stop counter
    · obtain ⟨ns', rfl, hns'⟩ := map_eq_counters_cons hw hns
      rw [countFrom_of_within hw] at h
      cases hbody : eval fuel body (i.counted m x counter) with
      | none =>
        rw [hbody] at h
        cases h
      | some p =>
        obtain ⟨_ | v, k⟩ := p
        · rw [hbody] at h
          cases h
          exact .failure ⟨fuel, hbody⟩
        · rw [hbody] at h
          refine .round ⟨fuel, hbody⟩ ?_
          cases hnext : int64? (counter.toInt + step.toInt) with
          | none =>
            rw [counters_of_overflow hw hnext] at hns'
            rw [List.map_eq_nil_iff.mp hns']
            simp only [hnext] at h
            cases h
            exact .done
          | some next =>
            rw [← int64?_eq_some_iff.mp hnext] at hns'
            simp only [hnext] at h
            exact ih hns' h
    · rw [map_eq_counters_nil hw hns]
      rw [countFrom_of_not_within hw] at h
      cases h
      exact .done

/-- A round for `n` is that of the counter of the loop, which is left with those after it. -/
theorem counters_of_round {n : Int64} {ns : List Int64}
    (hns : (n :: ns).map Int64.toInt = counters counter.toInt stop.toInt step.toInt) :
    n = counter ∧ within step stop counter ∧
      ns.map Int64.toInt = counters (counter.toInt + step.toInt) stop.toInt step.toInt := by
  by_cases hw : within step stop counter
  · obtain ⟨ns', heq, hns'⟩ := map_eq_counters_cons hw hns
    obtain ⟨rfl, rfl⟩ := List.cons.inj heq
    exact ⟨rfl, hw, hns'⟩
  · cases map_eq_counters_nil hw hns

/-- Going through its counters brings a loop to an end. -/
theorem countFrom_of_rounds {ns : List Int64} (h : Rounds m x body ns i r j)
    (hns : ns.map Int64.toInt = counters counter.toInt stop.toInt step.toInt) :
    ∃ fuel, countFrom fuel m x step stop body counter i = some (r, j) := by
  induction h generalizing counter with
  | done =>
    have hw : ¬within step stop counter := by
      intro hw
      rw [counters_of_within hw] at hns
      cases hns
    exact ⟨1, countFrom_of_not_within hw 0⟩
  | failure hbody =>
    obtain ⟨rfl, hw, -⟩ := counters_of_round hns
    obtain ⟨fuel, hbody⟩ := hbody
    exact ⟨fuel + 1, by rw [countFrom_of_within hw, hbody]⟩
  | round hbody hrest ih =>
    obtain ⟨rfl, hw, hns'⟩ := counters_of_round hns
    obtain ⟨fuel, hbody⟩ := hbody
    cases hnext : int64? (Int64.toInt _ + step.toInt) with
    | none =>
      rw [counters_of_overflow hw hnext] at hns'
      obtain rfl := List.map_eq_nil_iff.mp hns'
      cases hrest
      exact ⟨fuel + 1, by simp only [countFrom_of_within hw, hbody, hnext]⟩
    | some next =>
      rw [← int64?_eq_some_iff.mp hnext] at hns'
      obtain ⟨fuel', hrest⟩ := ih hns'
      refine ⟨max fuel fuel' + 1, ?_⟩
      simp only [countFrom_of_within hw, eval_of_le (Nat.le_max_left _ _) hbody, hnext]
      exact ((replaying (Nat.le_max_right _ _)).countFrom _ _ _ _ _ _).apply_eq hrest

end Rounds

section Bounds

variable {start stop : Expr Span} {step : Option (Expr Span)} {from_ to_ by_ : Int64}
  {i j k l : Interpreter}

theorem Evaluates.eventually {e : Expr Span} {r : Except Diagnostic Value} (h : Evaluates e i r j) :
    ∃ least, ∀ fuel ≥ least, eval fuel e i = some (r, j) := by
  obtain ⟨least, h⟩ := h
  exact ⟨least, fun _ hle => eval_of_le hle h⟩

theorem bind_of_ok {m : Eval α} {a : α} (h : m i = some (.ok a, j)) (next : α → Eval β) :
    (m >>= next) i = next a j := by
  rw [bind_apply, h]

theorem asBound_of_bound? {v : Value} {n : Int64} (h : v.bound? = some n) (b : Bound) (s : Span) :
    asBound b s v = pure n := by
  have hn : v.datum.number?.bind Number.toInt64? = some n := h
  rw [asBound, hn]

theorem StepIs.eventually (h : StepIs step k by_ l) :
    ∃ least, ∀ fuel ≥ least, evalStep fuel step k = some (.ok by_, l) := by
  cases h with
  | unwritten =>
    refine ⟨1, fun fuel hle => ?_⟩
    obtain ⟨fuel, rfl⟩ := Nat.exists_eq_add_of_le' hle
    rfl
  | written hc hby hne =>
    obtain ⟨least, hc⟩ := hc.eventually
    refine ⟨least + 1, fun fuel hle => ?_⟩
    obtain ⟨fuel, rfl⟩ := Nat.exists_eq_add_of_le' (Nat.le_of_add_left_le hle)
    rw [evalStep, bind_of_ok (hc fuel (Nat.le_of_succ_le_succ hle)), asBound_of_bound? hby,
      pure_bind, if_neg hne]
    rfl

/-- Once the bounds are known, what is left to do is to count and to give nothing. -/
theorem Bounds.eventually (h : Bounds start stop step i from_ to_ by_ l) (m : Span) (x : String)
    (body : Expr Span) : ∃ least, ∀ fuel ≥ least,
      eval (fuel + 1) (.count m x start stop step body) i =
        (countFrom fuel m x by_ to_ body from_ >>= fun _ => tag m .null) l := by
  obtain ⟨ha, hfrom, hb, hto, hstep⟩ := h
  obtain ⟨n₁, ha⟩ := ha.eventually
  obtain ⟨n₂, hb⟩ := hb.eventually
  obtain ⟨n₃, hstep⟩ := hstep.eventually
  refine ⟨n₁ + n₂ + n₃, fun fuel hle => ?_⟩
  rw [eval, bind_of_ok (ha fuel (by omega)), asBound_of_bound? hfrom, pure_bind,
    bind_of_ok (hb fuel (by omega)), asBound_of_bound? hto, pure_bind,
    bind_of_ok (hstep fuel (by omega))]

/-- A counting loop comes down to its rounds. -/
theorem Bounds.evaluates_count_iff (h : Bounds start stop step i from_ to_ by_ l) {m : Span}
    {x : String} {body : Expr Span} {ns : List Int64}
    (hns : ns.map Int64.toInt = counters from_.toInt to_.toInt by_.toInt)
    {r : Except Diagnostic Value} {i' : Interpreter} :
    Evaluates (.count m x start stop step body) i r i' ↔
      ∃ r', Rounds m x body ns l r' i' ∧
        r = r'.map fun _ => { datum := .null, span := some m, context := some i'.context } := by
  obtain ⟨least, heval⟩ := h.eventually m x body
  constructor
  · rintro ⟨fuel, he⟩
    have hmore : fuel ≤ max fuel least + 1 := by omega
    have he := eval_of_le hmore he
    rw [heval _ (Nat.le_max_right _ _), bind_apply] at he
    split at he
    next hc =>
      cases he
      exact ⟨_, rounds_of_countFrom hns hc, rfl⟩
    next hc =>
      cases he
      exact ⟨_, rounds_of_countFrom hns hc, rfl⟩
    next => cases he
  · rintro ⟨r', hr, rfl⟩
    obtain ⟨fuel, hc⟩ := countFrom_of_rounds hr hns
    have hc := ((replaying (Nat.le_max_left fuel least)).countFrom _ _ _ _ _ _).apply_eq hc
    refine ⟨max fuel least + 1, ?_⟩
    rw [heval _ (Nat.le_max_right _ _), bind_apply, hc]
    cases r' <;> rfl

end Bounds

/-- With enough fuel the computation comes to an end from every state, and with more to the same. -/
structure Settles (m : Nat → Eval α) : Prop where
  grows : ∀ fuel fuel', fuel ≤ fuel' → Replays (m fuel) (m fuel')
  ends : ∀ i, ∃ fuel p, m fuel i = some p

namespace Settles

theorem bind {m : Nat → Eval α} {next : α → Nat → Eval β} (hm : Settles m)
    (hn : ∀ a, Settles (next a)) : Settles fun fuel => m fuel >>= fun a => next a fuel where
  grows _ _ hle := .bind (hm.grows _ _ hle) fun a => (hn a).grows _ _ hle
  ends i := by
    obtain ⟨n₁, ⟨r, j⟩, hmi⟩ := hm.ends i
    cases r with
    | error d => exact ⟨n₁, (.error d, j), by rw [bind_apply, hmi]⟩
    | ok a =>
      obtain ⟨n₂, p, hnj⟩ := (hn a).ends j
      refine ⟨max n₁ n₂, p, ?_⟩
      rw [bind_of_ok ((hm.grows _ _ (Nat.le_max_left n₁ n₂)).apply_eq hmi)]
      exact ((hn a).grows _ _ (Nat.le_max_right n₁ n₂)).apply_eq hnj

/-- A computation that takes no fuel. -/
theorem of_ends {m : Eval α} (hm : Replays m m) (h : ∀ i, ∃ p, m i = some p) :
    Settles fun _ => m where
  grows _ _ _ := hm
  ends i := ⟨0, h i⟩

theorem pure (a : α) : Settles fun _ => (pure a : Eval α) := of_ends (.pure a) fun _ => ⟨_, rfl⟩

theorem fail (c : Cause) (s : Span) : Settles fun _ => (fail c s : Eval α) :=
  of_ends (.fail c s) fun _ => ⟨_, rfl⟩

theorem tag (s : Span) (d : Datum) : Settles fun _ => tag s d :=
  of_ends (.tag s d) fun _ => ⟨_, rfl⟩

theorem define (x : String) (v : Value) : Settles fun _ => define x v :=
  of_ends (.define x v) fun _ => ⟨_, rfl⟩

theorem tagResult (s t : Span) (r : Except Cause Datum) : Settles fun _ => tagResult s t r := by
  refine of_ends (.tagResult s t r) fun i => ?_
  obtain ⟨r', h⟩ := readOnly_tagResult s t r i
  exact ⟨_, h⟩

theorem asBound (b : Bound) (s : Span) (v : Value) : Settles fun _ => asBound b s v := by
  refine of_ends (.asBound b s v) fun i => ?_
  obtain ⟨r, h⟩ := readOnly_asBound b s v i
  exact ⟨_, h⟩

theorem lookup (x : String) : Settles fun _ => lookup x := of_ends (.lookup x) fun _ => ⟨_, rfl⟩

/-- A part of the evaluator that takes one from the fuel before it goes on. -/
theorem of_succ {m : Nat → Eval α} (hm : ∀ fuel fuel', fuel ≤ fuel' → Replays (m fuel) (m fuel'))
    (h : Settles fun fuel => m (fuel + 1)) : Settles m where
  grows := hm
  ends i := by
    obtain ⟨fuel, p, hp⟩ := h.ends i
    exact ⟨fuel + 1, p, hp⟩

theorem eval {e : Expr Span} (h : Settles fun fuel => eval (fuel + 1) e) :
    Settles fun fuel => eval fuel e :=
  of_succ (fun _ _ hle => (replaying hle).eval e) h

theorem evalArms {m : Span} {as : Arms Span} (h : Settles fun fuel => evalArms (fuel + 1) m as) :
    Settles fun fuel => evalArms fuel m as :=
  of_succ (fun _ _ hle => (replaying hle).evalArms m as) h

theorem evalStep {s : Option (Expr Span)} (h : Settles fun fuel => evalStep (fuel + 1) s) :
    Settles fun fuel => evalStep fuel s :=
  of_succ (fun _ _ hle => (replaying hle).evalStep s) h

end Settles

section Settles

/-- The evaluation of the expression comes to an end. -/
abbrev Settled (e : Expr Span) : Prop := Settles fun fuel => eval fuel e

variable {m : Span} {x : String} {body : Expr Span}

theorem exists_rounds (h : Settled body) (ns : List Int64) (i : Interpreter) :
    ∃ r j, Rounds m x body ns i r j := by
  induction ns generalizing i with
  | nil => exact ⟨_, _, .done⟩
  | cons n ns ih =>
    obtain ⟨fuel, ⟨r, j⟩, hbody⟩ := h.ends (i.counted m x n)
    cases r with
    | error d => exact ⟨_, _, .failure ⟨fuel, hbody⟩⟩
    | ok v =>
      obtain ⟨r, k, hrest⟩ := ih j
      exact ⟨r, k, .round ⟨fuel, hbody⟩ hrest⟩

theorem settles_countFrom (h : Settled body) (by_ last first : Int64) :
    Settles fun fuel => countFrom fuel m x by_ last body first where
  grows _ _ hle := (replaying hle).countFrom m x by_ last body first
  ends i := by
    obtain ⟨ns, hns⟩ := exists_counters first last by_
    obtain ⟨r, j, hr⟩ := exists_rounds h ns i
    obtain ⟨fuel, hc⟩ := countFrom_of_rounds hr hns
    exact ⟨fuel, _, hc⟩

theorem settles_choice {test body : Expr Span} (ht : Settled test) (hb : Settled body)
    {other : Nat → Eval Value} (ho : Settles other) : Settles fun fuel => (do
      if (← eval fuel test).datum.isTrue then eval fuel body else other fuel) := by
  refine .bind ht fun v => ?_
  split
  · exact hb
  · exact ho

theorem settles_evalArms {as : Arms Span} (h : ∀ c ∈ as.children, Settled c) :
    Settles fun fuel => evalArms fuel m as := by
  cases as with
  | done => exact .evalArms (.tag m .null)
  | otherwise body => exact .evalArms (h body List.mem_cons_self)
  | elif test body as =>
    obtain ⟨htest, hbody, has⟩ := by
      simpa only [Arms.children, List.forall_mem_cons] using h
    exact .evalArms (settles_choice htest hbody (settles_evalArms has))

theorem settles_evalStep {s : Option (Expr Span)} (h : ∀ e ∈ s, Settled e) :
    Settles fun fuel => evalStep fuel s := by
  refine .evalStep ?_
  cases s with
  | none => exact .pure 1
  | some e =>
    refine .bind (h e rfl) fun v => .bind (.asBound _ _ v) fun n => ?_
    split
    · exact .fail _ _
    · exact .pure n

theorem settles_count {start stop : Expr Span} {step : Option (Expr Span)} (hstart : Settled start)
    (hstop : Settled stop) (hstep : ∀ e ∈ step, Settled e) (hbody : Settled body) :
    Settled (.count m x start stop step body) := by
  refine .eval (.bind hstart fun a => .bind (.asBound _ _ a) fun first => ?_)
  refine .bind hstop fun b => .bind (.asBound _ _ b) fun last => ?_
  refine .bind (settles_evalStep hstep) fun by_ => ?_
  exact .bind (settles_countFrom hbody by_ last first) fun _ => .tag m .null

theorem settles_function (m : Span) (x : Option String) (ps : List String) (body : Expr Span) :
    Settled (.function m x ps body) := by
  refine .eval ⟨fun fuel fuel' _ => replays_function fuel fuel' m x ps body, fun i => ⟨0, ?_⟩⟩
  cases x <;> exact ⟨_, rfl⟩

theorem settles_var (m : Span) (x : String) : Settled (.var m x) := by
  refine .eval (.bind (.lookup x) fun o => ?_)
  split
  · exact .pure _
  · exact .fail _ _

/-- Without loops that have a condition and without calls, an evaluation comes to an end. -/
theorem settles_of_bounded {e : Expr Span} (h : ∀ n ∈ e.nodes, ¬n.isOpenEnded) : Settled e := by
  induction e using Expr.induction_on_children with
  | h e ih =>
    have hchild : ∀ c ∈ e.children, Settled c :=
      fun c hc => ih c hc fun n hn => h n (Expr.nodes_subset_of_child hc hn)
    have hself : ¬e.isOpenEnded := h e e.mem_nodes_self
    cases e with
    | number m n => exact .eval (.tag m _)
    | string m s => exact .eval (.tag m _)
    | var m x => exact settles_var m x
    | function m x ps body => exact settles_function m x ps body
    | assign m x e =>
      have he := hchild e List.mem_cons_self
      exact .eval (.bind he fun v => .bind (.define x v) fun _ => .pure v)
    | unary m op e =>
      have he := hchild e List.mem_cons_self
      exact .eval (.bind he fun a => .tagResult _ _ _)
    | binary m op l r =>
      obtain ⟨hl, hr⟩ := by simpa [Expr.children] using hchild
      exact .eval (.bind hl fun a => .bind hr fun b => .tagResult _ _ _)
    | choose m test body arms =>
      obtain ⟨htest, hbody, harms⟩ := by
        simpa only [Expr.children, List.forall_mem_cons] using hchild
      exact .eval (settles_choice htest hbody (settles_evalArms harms))
    | count m x start stop step body =>
      obtain ⟨hstart, hstop, hstep, hbody⟩ := by
        simpa [Expr.children, or_imp, forall_and] using hchild
      exact settles_count hstart hstop hstep hbody
    | loop | call => exact absurd rfl hself

end Settles

/-- A counting loop whose bounds are integers, and whose step is not zero, evaluates them once and
in order. Then it evaluates its body once for each of its counters, as many as it takes steps from
the start to the stop in arithmetic without bounds, in order and right after the counter is bound,
whatever the body does to the names; and a body that fails ends the loop with its error. So every
evaluation comes to an end that has no loop with a condition and no call in it. -/
theorem count_runs :
    (∀ (start stop : Expr Span) (step : Option (Expr Span)) (from_ to_ by_ : Int64)
      (i l : Interpreter), Bounds start stop step i from_ to_ by_ l →
      ∃ ns : List Int64, ns.map Int64.toInt = counters from_.toInt to_.toInt by_.toInt ∧
        ∀ m x body r i', Evaluates (.count m x start stop step body) i r i' ↔
          ∃ r', Rounds m x body ns l r' i' ∧
            r = r'.map fun _ => { datum := .null, span := some m, context := some i'.context }) ∧
    ∀ e : Expr Span, (∀ n ∈ e.nodes, ¬n.isOpenEnded) → ∀ i, ∃ r j, Evaluates e i r j := by
  constructor
  · intro start stop step from_ to_ by_ i l h
    obtain ⟨ns, hns⟩ := exists_counters from_ to_ by_
    exact ⟨ns, hns, fun _ _ _ _ _ => h.evaluates_count_iff hns⟩
  · intro e he i
    obtain ⟨fuel, p, h⟩ := (settles_of_bounded he).ends i
    exact ⟨p.1, p.2, fuel, h⟩

/-- The loop `FOR i = 9223372036854775800 TO 9223372036854775807 STEP 5 THEN VAR i = 0` counts
twice. The next counter is out of range. -/
theorem count_runs_overflow :
    let start : Expr Span := .number default (.int 9223372036854775800)
    let stop : Expr Span := .number default (.int 9223372036854775807)
    let step : Expr Span := .number default (.int 5)
    let body : Expr Span := .assign default "i" (.number default (.int 0))
    let e : Expr Span := .count default "i" start stop (some step) body
    let i : Interpreter := global []
    Bounds start stop (some step) i 9223372036854775800 9223372036854775807 5 i ∧
      (∀ r i', Evaluates e i r i' ↔
        ∃ r', Rounds default "i" body [9223372036854775800, 9223372036854775805] i r' i' ∧
          r = r'.map fun _ =>
            { datum := .null, span := some default, context := some i'.context }) ∧
      (∀ n ∈ e.nodes, ¬n.isOpenEnded) ∧ ∃ r j, Evaluates e i r j := by
  intro start stop step body e i
  have hstep : StepIs (some step) i 5 i := .written ⟨1, rfl⟩ rfl (by decide)
  have hbounds : Bounds start stop (some step) i 9223372036854775800 9223372036854775807 5 i :=
    .intro ⟨1, rfl⟩ rfl ⟨1, rfl⟩ rfl hstep
  obtain ⟨ns, hns, hiff⟩ := count_runs.1 _ _ _ _ _ _ _ _ hbounds
  have hclosed : ∀ n ∈ e.nodes, ¬n.isOpenEnded := by
    simp [e, start, stop, step, body, Expr.nodes, Expr.stepNodes, Expr.isOpenEnded]
  have hlist : ns.map Int64.toInt =
      [9223372036854775800, 9223372036854775805].map Int64.toInt := hns.trans (by decide)
  obtain rfl := List.map_injective_iff.mpr (fun _ _ => Int64.toInt_inj.mp) hlist
  exact ⟨hbounds, hiff _ _ _, hclosed, count_runs.2 e hclosed i⟩

end Interpreter

end Minibasic

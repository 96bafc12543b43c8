import Minibasic.Proofs.Evaluation.Counting
import Minibasic.Proofs.Value.Exact

/-!
Integer expressions. As long as all that is evaluated has its value in the range of 64-bit integers,
an expression of integers evaluates to what it stands for in arithmetic without bounds. An operation
that leaves the range gives a float.
-/

namespace Minibasic

variable {α β : Type}

/-- A literal integer, an operator that takes integers to integers, or a choice. -/
def Expr.isIntegral : Expr α → Bool
  | .number _ (.int _) | .unary _ _ _ | .choose _ _ _ _ => true
  | .binary _ op _ _ => op.isExact
  | _ => false

mutual

/-- What an expression of integers stands for in arithmetic without bounds. -/
def Expr.exact : Expr α → Int
  | .number _ (.int n) => n.toInt
  | .binary _ op l r => op.exact l.exact r.exact
  | .unary _ op e => op.exact e.exact
  | .choose _ c b as => if c.exact ≠ 0 then b.exact else as.exact
  | _ => 0

/-- What the arms stand for if no condition before them holds. -/
def Arms.exact : Arms α → Int
  | .done => 0
  | .otherwise b => b.exact
  | .elif c b as => if c.exact ≠ 0 then b.exact else as.exact

end

mutual

/-- The expression and those in it that its evaluation comes to. -/
def Expr.evaluated : Expr α → List (Expr α)
  | .binary m op l r => .binary m op l r :: (l.evaluated ++ r.evaluated)
  | .unary m op e => .unary m op e :: e.evaluated
  | .choose m c b as =>
    .choose m c b as :: (c.evaluated ++ if c.exact ≠ 0 then b.evaluated else as.evaluated)
  | e => [e]

def Arms.evaluated : Arms α → List (Expr α)
  | .done => []
  | .otherwise b => b.evaluated
  | .elif c b as => c.evaluated ++ if c.exact ≠ 0 then b.evaluated else as.evaluated

end

theorem Expr.mem_evaluated_self (e : Expr α) : e ∈ e.evaluated := by
  cases e <;> simp [evaluated]

namespace Interpreter

variable {i j k : Interpreter} {m : Span} {e l r test body : Expr Span}

/-- With enough fuel the run from `i` comes to an end in `j`, with the result `r`. -/
def Concludes (run : Nat → Eval α) (i : Interpreter) (r : Except Diagnostic α) (j : Interpreter) :
    Prop :=
  ∃ least, ∀ fuel ≥ least, run fuel i = some (r, j)

theorem evaluates_iff_concludes {res : Except Diagnostic Value} :
    Evaluates e i res j ↔ Concludes (eval · e) i res j := by
  constructor
  · exact Evaluates.eventually
  · intro h
    obtain ⟨least, h⟩ := h
    exact ⟨least, h least (Nat.le_refl least)⟩

namespace Concludes

variable {run : Nat → Eval α} {next : α → Nat → Eval β} {a : α} {res res' : Except Diagnostic α}

/-- There is only one end to come to. -/
theorem unique (h : Concludes run i res j) (h' : Concludes run i res' k) : res' = res ∧ k = j := by
  obtain ⟨least, h⟩ := h
  obtain ⟨least', h'⟩ := h'
  have heq := (h' _ (Nat.le_max_right least least')).symm.trans (h _ (Nat.le_max_left least least'))
  cases heq
  exact ⟨rfl, rfl⟩

theorem const {run : Eval α} (h : run i = some (res, j)) : Concludes (fun _ => run) i res j :=
  ⟨0, fun _ _ => h⟩

theorem bind {res : Except Diagnostic β} (h : Concludes run i (.ok a) j)
    (hn : Concludes (next a) j res k) :
    Concludes (fun fuel => run fuel >>= fun a => next a fuel) i res k := by
  obtain ⟨least, h⟩ := h
  obtain ⟨least', hn⟩ := hn
  refine ⟨max least least', fun fuel hle => ?_⟩
  change (run fuel >>= fun a => next a fuel) i = _
  rw [bind_of_ok (h fuel (Nat.le_trans (Nat.le_max_left _ _) hle))]
  exact hn fuel (Nat.le_trans (Nat.le_max_right _ _) hle)

/-- A part of the evaluator that takes one from the fuel before it goes on. -/
theorem of_succ (h : Concludes (fun fuel => run (fuel + 1)) i res j) : Concludes run i res j := by
  obtain ⟨least, h⟩ := h
  refine ⟨least + 1, fun fuel hle => ?_⟩
  obtain ⟨fuel, rfl⟩ := Nat.exists_eq_add_of_le' (Nat.le_of_add_left_le hle)
  exact h fuel (Nat.le_of_succ_le_succ hle)

end Concludes

section Operators

variable {op : BinaryOp} {a b : Value} {d : Datum}

theorem evaluates_binary (m : Span) (hl : Evaluates l i (.ok a) j) (hr : Evaluates r j (.ok b) k)
    (h : Datum.binary op a.datum b.datum = .ok d) :
    Evaluates (.binary m op l r) i (.ok ⟨d, some m, some k.context⟩) k := by
  rw [evaluates_iff_concludes] at hl hr ⊢
  refine .of_succ (.bind hl (.bind hr (.const ?_)))
  rw [h]
  rfl

theorem evaluates_unary {op : UnaryOp} (m : Span) (he : Evaluates e i (.ok a) j)
    (h : Datum.unary op a.datum = .ok d) :
    Evaluates (.unary m op e) i (.ok ⟨d, some m, some j.context⟩) j := by
  rw [evaluates_iff_concludes] at he ⊢
  refine .of_succ (.bind he (.const ?_))
  rw [h]
  rfl

end Operators

/-- The run gives the integer `n` and leaves the interpreter as it is. -/
def GivesInt (run : Nat → Eval Value) (i : Interpreter) (n : Int) : Prop :=
  ∃ v k, Concludes run i (.ok v) i ∧ v.datum = .int k ∧ k.toInt = n

theorem GivesInt.choice {other : Nat → Eval Value} {t n : Int} (ht : GivesInt (eval · test) i t)
    (hb : t ≠ 0 → GivesInt (eval · body) i n) (ho : t = 0 → GivesInt other i n) :
    GivesInt (fun fuel => (do
      if (← eval fuel test).datum.isTrue then eval fuel body else other fuel)) i n := by
  obtain ⟨c, k, hc, hck, hk⟩ := ht
  have htrue : c.datum.isTrue = decide (t ≠ 0) := by rw [hck, Datum.isTrue_int, hk]
  by_cases h : t = 0
  · obtain ⟨v, k', hv, hvk⟩ := ho h
    refine ⟨v, k', .bind hc ?_, hvk⟩
    rwa [htrue, h]
  · obtain ⟨v, k', hv, hvk⟩ := hb h
    refine ⟨v, k', .bind hc ?_, hvk⟩
    simpa [htrue, h] using hv

theorem GivesInt.of_succ {run : Nat → Eval Value} {n : Int}
    (h : GivesInt (fun fuel => run (fuel + 1)) i n) : GivesInt run i n := by
  obtain ⟨v, k, hv, hk⟩ := h
  exact ⟨v, k, .of_succ hv, hk⟩

theorem GivesInt.binary {op : BinaryOp} {a b : Int} (m : Span) (hop : op.isExact)
    (hl : GivesInt (eval · l) i a) (hr : GivesInt (eval · r) i b)
    (hrange : InRange (op.exact a b)) : GivesInt (eval · (.binary m op l r)) i (op.exact a b) := by
  obtain ⟨u, a, hu, hua, rfl⟩ := hl
  obtain ⟨v, b, hv, hvb, rfl⟩ := hr
  obtain ⟨k, hk⟩ := inRange_iff.mp hrange
  have hk' := int64?_eq_some_iff.mp hk
  have hbinary : Datum.binary op u.datum v.datum = .ok (.int k) := by
    rw [hua, hvb, Datum.binary_exact hop hk']
  rw [← evaluates_iff_concludes] at hu hv
  exact ⟨_, k, evaluates_iff_concludes.mp (evaluates_binary m hu hv hbinary), rfl, hk'⟩

theorem GivesInt.unary {op : UnaryOp} {a : Int} (m : Span) (he : GivesInt (eval · e) i a)
    (hrange : InRange (op.exact a)) : GivesInt (eval · (.unary m op e)) i (op.exact a) := by
  obtain ⟨u, a, hu, hua, rfl⟩ := he
  obtain ⟨k, hk⟩ := inRange_iff.mp hrange
  have hk' := int64?_eq_some_iff.mp hk
  have hunary : Datum.unary op u.datum = .ok (.int k) := by rw [hua, Datum.unary_exact hk']
  rw [← evaluates_iff_concludes] at hu
  exact ⟨_, k, evaluates_iff_concludes.mp (evaluates_unary m hu hunary), rfl, hk'⟩

/-- In every state an expression of integers gives what it stands for, if all that is evaluated is
in range. -/
def IsExact (e : Expr Span) : Prop :=
  (∀ n ∈ e.nodes, n.isIntegral) → (∀ n ∈ e.evaluated, InRange n.exact) →
    ∀ i, GivesInt (eval · e) i e.exact

/-- A condition, what it leads to, and the arms tried when it does not hold. -/
theorem GivesInt.branch {as : Arms Span} (htest : IsExact test) (hbody : IsExact body)
    (harms : (∀ n ∈ as.nodes, n.isIntegral) → (∀ n ∈ as.evaluated, InRange n.exact) →
      GivesInt (evalArms · m as) i as.exact)
    (hform : ∀ n ∈ test.nodes ++ body.nodes ++ as.nodes, n.isIntegral)
    (hrange : ∀ n ∈ test.evaluated ++
      (if test.exact ≠ 0 then body.evaluated else as.evaluated), InRange n.exact) :
    GivesInt (fun fuel => (do
      if (← eval fuel test).datum.isTrue then eval fuel body else evalArms fuel m as)) i
      (if test.exact ≠ 0 then body.exact else as.exact) := by
  simp only [List.forall_mem_append] at hform hrange
  refine .choice (htest hform.1.1 hrange.1 i) (fun h => ?_) fun h => ?_
  · rw [if_pos h] at hrange ⊢
    exact hbody hform.1.2 hrange.2 i
  · rw [if_neg (not_not.mpr h)] at hrange ⊢
    exact harms hform.2 hrange.2

theorem GivesInt.arms {as : Arms Span} (h : ∀ c ∈ as.children, IsExact c)
    (hform : ∀ n ∈ as.nodes, n.isIntegral) (hrange : ∀ n ∈ as.evaluated, InRange n.exact)
    (m : Span) (i : Interpreter) : GivesInt (evalArms · m as) i as.exact := by
  cases as with
  | done => exact ⟨_, 0, .of_succ (.const rfl), rfl, rfl⟩
  | otherwise body => exact .of_succ (h body List.mem_cons_self hform hrange i)
  | elif test body as =>
    obtain ⟨htest, hbody, has⟩ := by
      simpa only [Arms.children, List.forall_mem_cons] using h
    rw [Arms.nodes] at hform
    rw [Arms.evaluated] at hrange
    refine .of_succ (.branch htest hbody (fun hform hrange => ?_) hform hrange)
    exact .arms has hform hrange m i

theorem isExact (e : Expr Span) : IsExact e := by
  induction e using Expr.induction_on_children with
  | h e ih =>
    intro hform hrange i
    have hself := hform e e.mem_nodes_self
    cases e with
    | number m n =>
      cases n with
      | int n => exact ⟨_, n, .of_succ (.const rfl), rfl, rfl⟩
      | float x => cases hself
    | binary m op l r =>
      have hl := ih l List.mem_cons_self
      have hr := ih r (List.mem_cons_of_mem l List.mem_cons_self)
      simp only [Expr.nodes, Expr.evaluated, List.forall_mem_cons, List.forall_mem_append]
        at hform hrange
      exact .binary m hself (hl hform.2.1 hrange.2.1 i) (hr hform.2.2 hrange.2.2 i) hrange.1
    | unary m op e =>
      simp only [Expr.nodes, Expr.evaluated, List.forall_mem_cons] at hform hrange
      exact .unary m (ih e List.mem_cons_self hform.2 hrange.2 i) hrange.1
    | choose m test body as =>
      obtain ⟨htest, hbody, has⟩ := by
        simpa only [Expr.children, List.forall_mem_cons] using ih
      simp only [Expr.nodes, Expr.evaluated, List.forall_mem_cons] at hform hrange
      refine .of_succ (.branch htest hbody (fun hform hrange => ?_) hform.2 hrange.2)
      exact .arms has hform hrange m i
    | _ => cases hself

theorem Evaluates.iff {res : Except Diagnostic Value} (h : Evaluates e i res j)
    (res' : Except Diagnostic Value) (j' : Interpreter) :
    Evaluates e i res' j' ↔ res' = res ∧ j' = j := by
  constructor
  · intro h'
    exact (evaluates_iff_concludes.mp h).unique (evaluates_iff_concludes.mp h')
  · intro h'
    rwa [h'.1, h'.2]

section Overflow

variable {op : BinaryOp} {u v : Value} {a b : Int64}

theorem evaluates_binary_overflow (m : Span) (hop : op.isArithmetic)
    (hl : Evaluates l i (.ok u) j) (hu : u.datum = .int a) (hr : Evaluates r j (.ok v) k)
    (hv : v.datum = .int b) (hover : ¬InRange (op.exact a.toInt b.toInt)) :
    Evaluates (.binary m op l r) i
      (.ok ⟨.number (.float (op.rounded (.ofInt a.toInt) (.ofInt b.toInt))), some m,
        some k.context⟩) k := by
  refine evaluates_binary m hl hr ?_
  rw [hu, hv, Datum.binary_arithmetic hop, int64?_eq_none_of_not_inRange hover]
  rfl

theorem evaluates_minus_overflow (m : Span) (he : Evaluates e i (.ok u) j)
    (hu : u.datum = .int a) (hover : ¬InRange (-a.toInt)) :
    Evaluates (.unary m .minus e) i
      (.ok ⟨.number (.float (.ofInt a.toInt * .ofInt (-1))), some m, some j.context⟩) j := by
  refine evaluates_unary m he ?_
  have hproduct : BinaryOp.mul.exact a.toInt (-1 : Int64).toInt = -a.toInt := mul_neg_one a.toInt
  change Datum.binary .mul u.datum (.int (-1)) = _
  rw [hu, Datum.binary_arithmetic rfl, hproduct, int64?_eq_none_of_not_inRange hover]
  rfl

end Overflow

/-- Integer expressions have their exact value. If all that is evaluated is in range, an expression
of integers evaluates to what it stands for, in every state and without changing it. Where an
arithmetic operation on integers leaves the range, it gives a float, and so does a minus sign. -/
theorem exact_evaluation :
    (∀ e : Expr Span, (∀ n ∈ e.nodes, n.isIntegral) → (∀ n ∈ e.evaluated, InRange n.exact) →
      ∃ k : Int64, k.toInt = e.exact ∧
        ∀ i, ∃ v, v.datum = .int k ∧ ∀ res j, Evaluates e i res j ↔ res = .ok v ∧ j = i) ∧
    (∀ (m : Span) (op : BinaryOp) (l r : Expr Span) (u v : Value) (a b : Int64)
      (i j k : Interpreter), op.isArithmetic → ¬InRange (op.exact a.toInt b.toInt) →
      Evaluates l i (.ok u) j → u.datum = .int a → Evaluates r j (.ok v) k → v.datum = .int b →
      ∃ w, w.datum = .number (.float (op.rounded (.ofInt a.toInt) (.ofInt b.toInt))) ∧
        ∀ res k', Evaluates (.binary m op l r) i res k' ↔ res = .ok w ∧ k' = k) ∧
    ∀ (m : Span) (e : Expr Span) (u : Value) (a : Int64) (i j : Interpreter),
      ¬InRange (-a.toInt) → Evaluates e i (.ok u) j → u.datum = .int a →
      ∃ w, w.datum = .number (.float (.ofInt a.toInt * .ofInt (-1))) ∧
        ∀ res j', Evaluates (.unary m .minus e) i res j' ↔ res = .ok w ∧ j' = j := by
  refine ⟨fun e hform hrange => ?_, fun m op l r u v a b i j k hop hover hl hu hr hv => ?_,
    fun m e u a i j hover he hu => ?_⟩
  · obtain ⟨k, hk⟩ := inRange_iff.mp (hrange e e.mem_evaluated_self)
    have hk' := int64?_eq_some_iff.mp hk
    refine ⟨k, hk', fun i => ?_⟩
    obtain ⟨v, n, hv, hvn, hn⟩ := isExact e hform hrange i
    obtain rfl : n = k := Int64.toInt_inj.mp (hn.trans hk'.symm)
    exact ⟨v, hvn, (evaluates_iff_concludes.mpr hv).iff⟩
  · exact ⟨_, rfl, (evaluates_binary_overflow m hop hl hu hr hv hover).iff⟩
  · exact ⟨_, rfl, (evaluates_minus_overflow m he hu hover).iff⟩

/-- The least integer is a difference, its negation is a float, and a sum that is not evaluated may
leave the range. -/
theorem exact_evaluation_least :
    let literal (n : Int64) : Expr Span := .number default (.int n)
    let least : Expr Span :=
      .binary default .sub (.unary default .minus (literal Int64.maxValue)) (literal 1)
    let beyond : Expr Span := .binary default .add (literal Int64.maxValue) (literal 1)
    let e : Expr Span :=
      .choose default (.unary default .not (literal 0)) least (.otherwise beyond)
    (∀ n ∈ e.nodes, n.isIntegral) ∧ (∀ n ∈ e.evaluated, InRange n.exact) ∧ ¬InRange beyond.exact ∧
      ∀ i, ∃ v, v.datum = .int Int64.minValue ∧
        (∀ res j, Evaluates e i res j ↔ res = .ok v ∧ j = i) ∧
        ∃ w x, w.datum = .number (.float x) ∧
          ∀ res j, Evaluates (.unary default .minus e) i res j ↔ res = .ok w ∧ j = i := by
  intro literal least beyond e
  have hform : ∀ n ∈ e.nodes, n.isIntegral := by decide
  have hrange : ∀ n ∈ e.evaluated, InRange n.exact := by decide
  have hover : ¬InRange (-Int64.minValue.toInt) := by decide
  refine ⟨hform, hrange, by decide, fun i => ?_⟩
  obtain ⟨k, hk, hgives⟩ := exact_evaluation.1 e hform hrange
  obtain rfl : k = Int64.minValue := Int64.toInt_inj.mp (hk.trans (by decide))
  obtain ⟨v, hv, heval⟩ := hgives i
  obtain ⟨w, hw, hminus⟩ := exact_evaluation.2.2 default e v _ i i hover
    ((heval _ _).mpr ⟨rfl, rfl⟩) hv
  exact ⟨v, hv, heval, w, _, hw, hminus⟩

end Interpreter

end Minibasic

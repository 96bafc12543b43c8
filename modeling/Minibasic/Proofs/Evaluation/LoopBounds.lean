import Minibasic.Proofs.Evaluation.Counting
import Minibasic.Proofs.Evaluation.Faults
import Minibasic.Proofs.Number.Integrality

/-!
The bounds that counting loops accept. Numbers that are integers in range are bounds, whether they
are floats or not, but for the least of them as a float.
-/

namespace Minibasic

theorem Value.bound?_eq_some_iff {v : Value} {k : Int64} :
    v.bound? = some k ↔ ∃ n, v.datum = .number n ∧ n.Integral k := by
  unfold Value.bound?
  cases v.datum with
  | number n => simp [Datum.number?, Number.toInt64?_eq_some_iff]
  | string | function => simp [Datum.number?]

namespace Interpreter

/-- The expression, evaluated from `i` to `j`, gives a number that is the integer `k`. -/
def GivesInteger (e : Expr Span) (i : Interpreter) (k : Int64) (j : Interpreter) : Prop :=
  ∃ v n, Evaluates e i (.ok v) j ∧ v.datum = .number n ∧ n.Integral k

variable {start stop : Expr Span} {step : Option (Expr Span)} {from_ to_ by_ : Int64}
  {i j k l : Interpreter}

theorem bounds_of_givesInteger (hstart : GivesInteger start i from_ j)
    (hstop : GivesInteger stop j to_ k) (hnone : step = none → by_ = 1 ∧ l = k)
    (hsome : ∀ e ∈ step, GivesInteger e k by_ l ∧ by_ ≠ 0) :
    Bounds start stop step i from_ to_ by_ l := by
  obtain ⟨a, m, ha, hm⟩ := hstart
  obtain ⟨b, n, hb, hn⟩ := hstop
  have hstep : StepIs step k by_ l := by
    cases step with
    | none =>
      obtain ⟨rfl, rfl⟩ := hnone rfl
      exact .unwritten
    | some e =>
      obtain ⟨⟨c, o, hc, ho⟩, hne⟩ := hsome e rfl
      exact .written hc (Value.bound?_eq_some_iff.mpr ⟨o, ho⟩) hne
  exact .intro ha (Value.bound?_eq_some_iff.mpr ⟨m, hm⟩) hb (Value.bound?_eq_some_iff.mpr ⟨n, hn⟩)
    hstep

theorem asBound_apply (b : Bound) (s : Span) (v : Value) (i : Interpreter) : asBound b s v i =
    some (v.bound?.elim (.error ⟨notInteger b v, s, some i.context⟩) .ok, i) := by
  unfold asBound Value.bound?
  cases v.datum.number?.bind Number.toInt64? <;> rfl

theorem asBound_number {a : Number} {v : Value} (hv : v.datum = .number a) (b : Bound) (s : Span)
    (i : Interpreter) : (∃ k, a.Integral k ∧ asBound b s v i = some (.ok k, i)) ∨
      (∀ k, ¬a.Integral k) ∧
        asBound b s v i = some (.error ⟨notInteger b v, s, some i.context⟩, i) := by
  have hbound : v.bound? = a.toInt64? := by
    rw [Value.bound?, hv]
    rfl
  rw [asBound_apply, hbound]
  cases ha : a.toInt64? with
  | some k => exact .inl ⟨k, Number.toInt64?_eq_some_iff.mp ha, rfl⟩
  | none =>
    refine .inr ⟨fun k hk => ?_, rfl⟩
    rw [Number.toInt64?_eq_some_iff.mpr hk] at ha
    cases ha

/-- A number converts to an integer just if it is one in range, unless it is the least of them as a
float. The numbers that convert are the bounds that loops accept, and with three of them, the step
not zero, a loop runs. -/
theorem integral_bounds (a : Number) :
    ((∀ k : Int64, a.toInt64? = some k ↔ a.value? = some (k.toInt : ℚ)) ↔ ¬a.IsLeastFloat) ∧
    (a.IsLeastFloat → a.toInt64? = none) ∧
    (∀ (b : Bound) (s : Span) (v : Value) (i : Interpreter), v.datum = .number a →
      (∃ k, a.Integral k ∧ asBound b s v i = some (.ok k, i)) ∨
      (∀ k, ¬a.Integral k) ∧
        asBound b s v i = some (.error ⟨notInteger b v, s, some i.context⟩, i)) ∧
    ∀ (start stop : Expr Span) (step : Option (Expr Span)) (from_ to_ by_ : Int64)
      (i j k l : Interpreter), GivesInteger start i from_ j → GivesInteger stop j to_ k →
      (step = none → by_ = 1 ∧ l = k) → (∀ e ∈ step, GivesInteger e k by_ l ∧ by_ ≠ 0) →
      ∃ ns : List Int64, ns.map Int64.toInt = counters from_.toInt to_.toInt by_.toInt ∧
        ∀ m x body r i', Evaluates (.count m x start stop step body) i r i' ↔
          ∃ r', Rounds m x body ns l r' i' ∧
            r = r'.map fun _ => { datum := .null, span := some m, context := some i'.context } := by
  refine ⟨Number.toInt64?_exact_iff, fun hleast => ?_,
    fun b s v i hv => asBound_number hv b s i, ?_⟩
  · refine Option.eq_none_iff_forall_ne_some.mpr fun k hk => ?_
    exact (Number.toInt64?_eq_some_iff.mp hk).2 hleast
  · intro start stop step from_ to_ by_ i j k l hstart hstop hnone hsome
    obtain ⟨ns, hns⟩ := exists_counters from_ to_ by_
    have hbounds := bounds_of_givesInteger hstart hstop hnone hsome
    exact ⟨ns, hns, fun _ _ _ _ _ => hbounds.evaluates_count_iff hns⟩

/-- A loop over the integers 1 and 4, from a float to an integer in steps of a float. -/
theorem integral_bounds_floats :
    let start : Expr Span := .number default (.float 1)
    let stop : Expr Span := .number default (.int 7)
    let step : Expr Span := .number default (.float 3)
    let i : Interpreter := global []
    (GivesInteger start i 1 i ∧ GivesInteger stop i 7 i ∧ GivesInteger step i 3 i) ∧
      ∀ m x body r i', Evaluates (.count m x start stop (some step) body) i r i' ↔
        ∃ r', Rounds m x body [1, 4] i r' i' ∧
          r = r'.map fun _ => { datum := .null, span := some m, context := some i'.context } := by
  intro start stop step i
  have hgives (n : Number) (k : Int64) (h : n.toInt64? = some k) :
      GivesInteger (.number default n) i k i :=
    ⟨_, n, ⟨1, rfl⟩, rfl, Number.toInt64?_eq_some_iff.mp h⟩
  have hstart : GivesInteger start i 1 i := hgives _ _ (by decide +kernel)
  have hstop : GivesInteger stop i 7 i := hgives _ _ rfl
  have hstep : GivesInteger step i 3 i := hgives _ _ (by decide +kernel)
  obtain ⟨ns, hns, hiff⟩ := (integral_bounds (.float 1)).2.2.2 start stop (some step) 1 7 3 i i i i
    hstart hstop nofun (fun e he => Option.some.inj he ▸ ⟨hstep, by decide⟩)
  have hlist : ns.map Int64.toInt = [1, 4].map Int64.toInt := hns.trans (by decide)
  obtain rfl := List.map_injective_iff.mpr (fun _ _ => Int64.toInt_inj.mp) hlist
  exact ⟨⟨hstart, hstop, hstep⟩, hiff⟩

/-- The least integer of the range is no bound as a float. Every loop that starts there fails. -/
theorem least_float_no_bound :
    Number.leastFloat.value? = some (Int64.minValue.toInt : ℚ) ∧
    Number.leastFloat.toInt64? = none ∧
    ∀ m s x stop step body i,
      let v : Value := ⟨.number Number.leastFloat, some s, some i.context⟩
      Evaluates (.count m x (.number s Number.leastFloat) stop step body) i
        (.error ⟨notInteger .start v, s, some i.context⟩) i := by
  have hnone : Number.leastFloat.toInt64? = none := by decide +kernel
  refine ⟨Number.leastFloat_value?, hnone, ?_⟩
  intro m s x stop step body i v
  refine ⟨2, ?_⟩
  have hstart : eval 1 (.number s Number.leastFloat) i = some (.ok v, i) := rfl
  have hbound : v.bound? = none := hnone
  rw [eval, bind_of_ok hstart, bind_apply, asBound_apply, hbound]
  rfl

end Interpreter

end Minibasic

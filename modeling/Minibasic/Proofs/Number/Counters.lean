import Minibasic.Interpreter
import Mathlib.Algebra.Order.Floor.Div

/-!
The counters of a loop over the integers, in arithmetic without bounds. Those of a loop over 64-bit
integers are all in range, and the loop need not go on where the next one is not.
-/

namespace Minibasic

/-- The distance from `start` to `stop` in steps of `step`, rounded up. It is zero if `stop` does
not lie in the direction of `step`. -/
def iterations (start stop step : Int) : Nat :=
  if 0 < step ∧ start < stop ∨ step < 0 ∧ stop < start
  then (stop - start).natAbs ⌈/⌉ step.natAbs else 0

/-- The counters of a loop from `start` to `stop` in steps of `step`, in order. -/
def counters (start stop step : Int) : List Int :=
  (List.range (iterations start stop step)).map fun (k : Nat) => start + k * step

/-- A distance is one step and the distance that is left after it. -/
theorem ceilDiv_eq_succ {distance step : Nat} (hd : 0 < distance) (hs : 0 < step) :
    distance ⌈/⌉ step = (distance - step) ⌈/⌉ step + 1 := by
  rw [Nat.ceilDiv_eq_add_pred_div, Nat.ceilDiv_eq_add_pred_div]
  rcases Nat.le_total step distance with h | h
  · have hsum : distance + step - 1 = distance - step + step - 1 + step := by omega
    rw [hsum, Nat.add_div_right _ hs]
  · have hsum : distance + step - 1 = distance - 1 + step := by omega
    have hleft : distance - step + step - 1 < step := by omega
    rw [hsum, Nat.add_div_right _ hs, Nat.div_eq_of_lt hleft, Nat.div_eq_of_lt (by omega)]

theorem iterations_neg (start stop step : Int) :
    iterations (-start) (-stop) (-step) = iterations start stop step := by
  have hdistance : (-stop - -start).natAbs = (stop - start).natAbs := by omega
  have hdirection : (0 < -step ∧ -start < -stop ∨ -step < 0 ∧ -stop < -start) ↔
      (0 < step ∧ start < stop ∨ step < 0 ∧ stop < start) := by omega
  rw [iterations, iterations, hdistance, Int.natAbs_neg, if_congr hdirection rfl rfl]

/-- Upwards, the number of iterations is the same on both sides of `stop`. -/
theorem iterations_of_pos {step : Int} (hs : 0 < step) (start stop : Int) :
    iterations start stop step = (stop - start).toNat ⌈/⌉ step.natAbs := by
  unfold iterations
  split
  next h =>
    have hdistance : (stop - start).natAbs = (stop - start).toNat := by omega
    rw [hdistance]
  next h =>
    have hzero : (stop - start).toNat = 0 := by omega
    rw [hzero, zero_ceilDiv]

theorem iterations_succ_of_pos {start stop step : Int} (hs : 0 < step) (h : start < stop) :
    iterations start stop step = iterations (start + step) stop step + 1 := by
  have hleft : (stop - (start + step)).toNat = (stop - start).toNat - step.natAbs := by omega
  rw [iterations_of_pos hs, iterations_of_pos hs, hleft]
  exact ceilDiv_eq_succ (by omega) (by omega)

theorem iterations_succ {start stop step : Int}
    (h : 0 < step ∧ start < stop ∨ step < 0 ∧ stop < start) :
    iterations start stop step = iterations (start + step) stop step + 1 := by
  rcases h with ⟨hs, h⟩ | ⟨hs, h⟩
  · exact iterations_succ_of_pos hs h
  · rw [← iterations_neg, iterations_succ_of_pos (by omega) (by omega), ← Int.neg_add,
      iterations_neg]

theorem counters_eq_cons {start stop step : Int}
    (h : 0 < step ∧ start < stop ∨ step < 0 ∧ stop < start) :
    counters start stop step = start :: counters (start + step) stop step := by
  have hshift (k : Nat) : start + (k + 1 : Nat) * step = start + step + k * step := by
    rw [Int.natCast_succ, Int.add_mul, Int.one_mul, Int.add_assoc, Int.add_comm step]
  rw [counters, iterations_succ h, List.range_succ_eq_map, List.map_cons, List.map_map]
  simp only [counters, Function.comp_def, Nat.succ_eq_add_one, hshift, Int.natCast_zero,
    Int.zero_mul, Int.add_zero]

theorem counters_eq_nil {start stop step : Int}
    (h : ¬(0 < step ∧ start < stop ∨ step < 0 ∧ stop < start)) : counters start stop step = [] := by
  rw [counters, iterations, if_neg h]
  rfl

theorem int64?_eq_none_iff {n : Int} :
    int64? n = none ↔ n < Int64.minValue.toInt ∨ Int64.maxValue.toInt < n := by
  rw [int64?, ite_eq_right_iff, imp_iff_not (Option.some_ne_none _), not_and_or, Int.not_le,
    Int.not_le]

namespace Interpreter

theorem within_iff {step stop counter : Int64} : within step stop counter = true ↔
    0 < step.toInt ∧ counter.toInt < stop.toInt ∨ step.toInt < 0 ∧ stop.toInt < counter.toInt := by
  simp [within, Int64.lt_iff_toInt_lt]

theorem counters_of_within {step stop counter : Int64} (h : within step stop counter) :
    counters counter.toInt stop.toInt step.toInt =
      counter.toInt :: counters (counter.toInt + step.toInt) stop.toInt step.toInt :=
  counters_eq_cons (within_iff.mp h)

theorem counters_of_not_within {step stop counter : Int64} (h : ¬within step stop counter) :
    counters counter.toInt stop.toInt step.toInt = [] :=
  counters_eq_nil (mt within_iff.mpr h)

/-- A counter that is out of range is beyond every `stop`. -/
theorem counters_of_overflow {step stop counter : Int64} (h : within step stop counter)
    (hnext : int64? (counter.toInt + step.toInt) = none) :
    counters (counter.toInt + step.toInt) stop.toInt step.toInt = [] := by
  have hdirection := within_iff.mp h
  have hrange := int64?_eq_none_iff.mp hnext
  have hstop := And.intro stop.minValue_le_toInt stop.toInt_le
  have hcounter := And.intro counter.minValue_le_toInt counter.toInt_le
  exact counters_eq_nil (by omega)

/-- The counters of a loop over 64-bit integers are such integers. -/
theorem exists_counters (start stop step : Int64) : ∃ ns : List Int64,
    ns.map Int64.toInt = counters start.toInt stop.toInt step.toInt := by
  generalize hn : (counters start.toInt stop.toInt step.toInt).length = n
  induction n generalizing start with
  | zero => exact ⟨[], (List.length_eq_zero_iff.mp hn).symm⟩
  | succ n ih =>
    have hw : within step stop start := by
      by_contra hw
      rw [counters_of_not_within hw] at hn
      cases hn
    rw [counters_of_within hw] at hn ⊢
    cases hnext : int64? (start.toInt + step.toInt) with
    | none => exact ⟨[start], by rw [counters_of_overflow hw hnext]; rfl⟩
    | some next =>
      rw [← int64?_eq_some_iff.mp hnext] at hn ⊢
      obtain ⟨ns, hns⟩ := ih next (Nat.succ.inj hn)
      exact ⟨start :: ns, by rw [List.map_cons, hns]⟩

end Interpreter

end Minibasic

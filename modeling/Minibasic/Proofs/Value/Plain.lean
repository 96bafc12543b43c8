import Minibasic.Builtin
import Minibasic.Value.Operators

/-!
Where functions come from: no operator makes one, nor does a built-in function.
-/

namespace Minibasic

/-- The datum is no function. -/
def Datum.Plain (d : Datum) : Prop := ∀ f, d ≠ .function f

namespace Datum

variable {op : BinaryOp} {a b d : Datum}

theorem plain_number (n : Number) : (number n).Plain := nofun

theorem plain_string (s : String) : (string s).Plain := nofun

theorem onNumbers_plain {f : Number → Number → Number} (h : onNumbers op f a b = .ok d) :
    d.Plain := by
  unfold onNumbers at h
  split at h
  · cases h
    exact plain_number _
  · cases h

theorem onOrder_plain {test : Option Ordering → Bool} (h : onOrder op test a b = .ok d) :
    d.Plain := by
  unfold onOrder at h
  split at h
  · cases h
    exact plain_number _
  · cases h

theorem logical_plain {f : Bool → Bool → Bool} (h : logical op f a b = .ok d) : d.Plain := by
  unfold logical at h
  split at h
  · cases h
  · cases h
  · cases h
    exact plain_number _

theorem mul_plain (h : mul a b = .ok d) : d.Plain := by
  unfold mul at h
  split at h
  · simp only [replicate] at h
    split at h
    · cases h
      exact plain_string _
    · cases h
  · exact onNumbers_plain h

theorem div_plain (h : div a b = .ok d) : d.Plain := by
  unfold div at h
  split at h
  · split at h
    · cases h
    · cases h
      exact plain_number _
  · cases h

theorem binary_plain (h : binary op a b = .ok d) : d.Plain := by
  cases op with
  | add =>
    simp only [binary, add] at h
    split at h
    · cases h
      exact plain_string _
    · exact onNumbers_plain h
  | eq | ne =>
    simp only [binary, eq, ne] at h
    split at h
    · cases h
      exact plain_number _
    · exact onOrder_plain h
  | lt | le | gt | ge =>
    simp only [binary] at h
    exact onOrder_plain h
  | mul => exact mul_plain h
  | div => exact div_plain h
  | sub | pow => exact onNumbers_plain h
  | and | or => exact logical_plain h

/-- An operator on one operand gives no function but the operand itself. -/
theorem unary_plain {op : UnaryOp} (h : unary op a = .ok d) : d = a ∨ d.Plain := by
  cases op with
  | plus =>
    cases h
    exact .inl rfl
  | minus => exact .inr (mul_plain h)
  | not =>
    change Datum.not a = .ok d at h
    unfold Datum.not at h
    split at h
    · cases h
    · cases h
      exact .inr (plain_number _)

end Datum

theorem Builtin.run_plain {b : Builtin} {look : String → Option Datum} {c : Console} {d : Datum}
    (h : (b.run look c).1 = .ok d) : d.Plain := by
  cases b with
  | print =>
    simp only [run] at h
    split at h <;> cases h
    exact Datum.plain_number _
  | printReturn =>
    simp only [run] at h
    cases ha : argument look with
    | ok a =>
      rw [ha] at h
      cases h
      exact Datum.plain_string _
    | error e =>
      rw [ha] at h
      cases h
  | input =>
    simp only [run] at h
    split at h <;> cases h
    exact Datum.plain_string _
  | inputInt =>
    simp only [run] at h
    split at h <;> cases h
    exact Datum.plain_number _

end Minibasic

import Mathlib
import Minibasic.Proofs.Value.Plain

/-!
The operands that operators are made for. An operator succeeds on exactly these, and it fails on
all others in one of two ways.
-/

namespace Minibasic

/-- The number is the integer zero or one of the two floats that are zero. -/
def Number.Zero (n : Number) : Prop := n = .int 0 ∨ n = .float 0 ∨ n = .float (-0)

theorem Number.isZero_iff (n : Number) : n.isZero ↔ n.Zero := by
  cases n with
  | int k => simp [isZero, Zero]
  | float x =>
    have hnan : (0 : Float) ≠ .nan ∧ (-0 : Float) ≠ .nan := by decide +kernel
    rw [isZero, Float.beq_iff_ne_nan_and_eq, Zero]
    constructor
    · rintro ⟨-, -, rfl | ⟨rfl, -⟩ | ⟨rfl, -⟩⟩
      · exact .inr (.inl rfl)
      · exact .inr (.inl rfl)
      · exact .inr (.inr rfl)
    · rintro (h | h | h) <;> cases h
      · exact ⟨hnan.1, hnan.1, .inl rfl⟩
      · exact ⟨hnan.2, hnan.1, .inr (.inr ⟨rfl, rfl⟩)⟩

namespace Datum

variable {op : BinaryOp} {a b d : Datum}

/-- The operands that an operator is made for. -/
inductive Accepts : BinaryOp → Datum → Datum → Prop
  | numbers {op : BinaryOp} {m n : Number} (h : op = .div → ¬n.Zero) :
      Accepts op (number m) (number n)
  | add {s t : String} : Accepts .add (string s) (string t)
  | eq {s t : String} : Accepts .eq (string s) (string t)
  | ne {s t : String} : Accepts .ne (string s) (string t)
  | mul {s : String} {n : Int64} (h : s.utf8ByteSize * n.toInt.toNat ≤ 2 ^ 28) :
      Accepts .mul (string s) (number (.int n))
  | and {a b : Datum} (ha : a.Plain) (hb : b.Plain) : Accepts .and a b
  | or {a b : Datum} (ha : a.Plain) (hb : b.Plain) : Accepts .or a b

/-- A number divided by zero. -/
inductive DivisionByZero : BinaryOp → Datum → Datum → Prop
  | intro {m n : Number} (h : n.Zero) : DivisionByZero .div (number m) (number n)

theorem Accepts.not_divisionByZero (h : Accepts op a b) : ¬DivisionByZero op a b := by
  rintro ⟨hn⟩
  obtain ⟨hne⟩ := h
  exact hne rfl hn

/-- What is wrong with operands that an operator is not made for: their types, or that a string
would be too long. -/
def complaint (op : BinaryOp) (a b : Datum) : String :=
  match op, a, b with
  | .mul, string _, number (.int _) =>
    "repeated string would exceed " ++ toString maxRepeated ++ " bytes"
  | _, _, _ => a.typeName ++ " " ++ op.text ++ " " ++ b.typeName

/-- What an operator may result in. -/
inductive Outcome (op : BinaryOp) (a b : Datum) : Except Cause Datum → Prop
  | ok {d : Datum} (h : Accepts op a b) : Outcome op a b (.ok d)
  | zero (h : DivisionByZero op a b) : Outcome op a b (.error .divisionByZero)
  | illegal (h : ¬Accepts op a b) (hzero : ¬DivisionByZero op a b) :
      Outcome op a b (.error (.illegalOperation (complaint op a b)))

theorem numbers_outcome (op : BinaryOp) (m n : Number) :
    Outcome op (number m) (number n) (binary op (number m) (number n)) := by
  cases op with
  | div =>
    change Outcome _ _ _ (if n.isZero then _ else _)
    split
    next h => exact .zero (.intro (n.isZero_iff.mp h))
    next h => exact .ok (.numbers fun _ => mt n.isZero_iff.mpr h)
  | _ => exact .ok (.numbers nofun)

theorem strings_outcome (op : BinaryOp) (s t : String) :
    Outcome op (string s) (string t) (binary op (string s) (string t)) := by
  cases op with
  | add => exact .ok .add
  | eq => exact .ok .eq
  | ne => exact .ok .ne
  | and => exact .ok (.and (plain_string s) (plain_string t))
  | or => exact .ok (.or (plain_string s) (plain_string t))
  | _ => exact .illegal nofun nofun

theorem number_string_outcome (op : BinaryOp) (m : Number) (t : String) :
    Outcome op (number m) (string t) (binary op (number m) (string t)) := by
  cases op with
  | and => exact .ok (.and (plain_number m) (plain_string t))
  | or => exact .ok (.or (plain_number m) (plain_string t))
  | _ => exact .illegal nofun nofun

theorem string_number_outcome (op : BinaryOp) (s : String) (n : Number) :
    Outcome op (string s) (number n) (binary op (string s) (number n)) := by
  cases op with
  | mul =>
    cases n with
    | float x => exact .illegal nofun nofun
    | int k =>
      change Outcome _ _ _ (if s.utf8ByteSize * k.toInt.toNat ≤ 2 ^ 28 then _ else _)
      split
      next h => exact .ok (.mul h)
      next h => exact .illegal (fun | .mul hlength => h hlength) nofun
  | and => exact .ok (.and (plain_string s) (plain_number n))
  | or => exact .ok (.or (plain_string s) (plain_number n))
  | _ => exact .illegal nofun nofun

theorem function_outcome (op : BinaryOp) (f : Function) (a : Datum) :
    Outcome op (function f) a (binary op (function f) a) ∧
    Outcome op a (function f) (binary op a (function f)) := by
  cases op with
  | and =>
    cases a <;> exact ⟨.illegal (fun | .and ha _ => ha f rfl) nofun,
      .illegal (fun | .and _ hb => hb f rfl) nofun⟩
  | or =>
    cases a <;> exact ⟨.illegal (fun | .or ha _ => ha f rfl) nofun,
      .illegal (fun | .or _ hb => hb f rfl) nofun⟩
  | _ => cases a <;> exact ⟨.illegal nofun nofun, .illegal nofun nofun⟩

theorem binary_outcome (op : BinaryOp) (a b : Datum) : Outcome op a b (binary op a b) := by
  cases a with
  | function f => exact (function_outcome op f b).1
  | number m =>
    cases b with
    | function g => exact (function_outcome op g _).2
    | number n => exact numbers_outcome op m n
    | string t => exact number_string_outcome op m t
  | string s =>
    cases b with
    | function g => exact (function_outcome op g _).2
    | number n => exact string_number_outcome op s n
    | string t => exact strings_outcome op s t

namespace Outcome

variable {r : Except Cause Datum}

theorem ok_iff (h : Outcome op a b r) : (∃ d, r = .ok d) ↔ Accepts op a b := by
  cases h with
  | ok haccepts => exact iff_of_true ⟨_, rfl⟩ haccepts
  | zero hzero => exact iff_of_false nofun fun haccepts => haccepts.not_divisionByZero hzero
  | illegal haccepts _ => exact iff_of_false nofun haccepts

theorem zero_iff (h : Outcome op a b r) :
    r = .error .divisionByZero ↔ DivisionByZero op a b := by
  cases h with
  | ok haccepts => exact iff_of_false nofun haccepts.not_divisionByZero
  | zero hzero => exact iff_of_true rfl hzero
  | illegal _ hzero => exact iff_of_false nofun hzero

theorem error_cases {c : Cause} (h : Outcome op a b (.error c)) :
    c = .divisionByZero ∨ c = .illegalOperation (complaint op a b) := by
  cases h with
  | zero => exact .inl rfl
  | illegal => exact .inr rfl

end Outcome

theorem onOrder_test {test : Option Ordering → Bool} (h : onOrder op test a b = .ok d) :
    ∃ t, d = ofBool t := by
  unfold onOrder at h
  split at h
  · cases h
    exact ⟨_, rfl⟩
  · cases h

theorem logical_test {f : Bool → Bool → Bool} (h : logical op f a b = .ok d) :
    ∃ t, d = ofBool t := by
  unfold logical at h
  split at h
  · cases h
  · cases h
  · cases h
    exact ⟨_, rfl⟩

/-- The operators that answer a question. -/
def tests : List BinaryOp := [.eq, .ne, .lt, .le, .gt, .ge, .and, .or]

theorem binary_test (hop : op ∈ tests) (h : binary op a b = .ok d) : ∃ t, d = ofBool t := by
  cases op with
  | eq | ne =>
    simp only [binary, eq, ne] at h
    split at h
    · cases h
      exact ⟨_, rfl⟩
    · exact onOrder_test h
  | lt | le | gt | ge =>
    simp only [binary] at h
    exact onOrder_test h
  | and | or => exact logical_test h
  | _ => exact absurd hop (by decide)

theorem ofBool_cases (t : Bool) : ofBool t = int 0 ∨ ofBool t = int 1 := by
  cases t
  · exact .inl rfl
  · exact .inr rfl

/-- Equality and inequality accept the same operands and give opposite answers. -/
theorem eq_ne (h : Accepts .eq a b ∨ Accepts .ne a b) :
    ∃ t, binary .eq a b = .ok (ofBool t) ∧ binary .ne a b = .ok (ofBool !t) := by
  rcases h with h | h
  all_goals cases h <;> exact ⟨_, rfl, rfl⟩

theorem copies_eq (n : Nat) (s : String) : copies n s = String.join (List.replicate n s) := by
  unfold copies
  split
  next h =>
    obtain rfl : s = "" := String.isEmpty_iff.mp h
    induction n with
    | zero => rfl
    | succ n ih => rw [List.replicate_succ, String.join_cons, ← ih, String.append_empty]
  next => rfl

theorem mul_repetition {s : String} {n : Int64} (h : mul (string s) (int n) = .ok d) :
    d = string (String.join (List.replicate n.toInt.toNat s)) ∧ (n ≤ 0 → d = string "") := by
  change (if _ ≤ maxRepeated then _ else _) = _ at h
  split at h
  · cases h
    rw [copies_eq]
    refine ⟨rfl, fun hn => ?_⟩
    have hnone : n.toInt.toNat = 0 := Int.toNat_of_nonpos (Int64.le_iff_toInt_le.mp hn)
    rw [hnone]
    rfl
  · cases h

/-- Operators succeed on the operands that they are made for, and they convert none. -/
theorem operator_domain (a b : Datum) :
    (∀ op, (∃ d, binary op a b = .ok d) ↔ Accepts op a b) ∧
    (∀ op, binary op a b = .error .divisionByZero ↔ DivisionByZero op a b) ∧
    (∀ op c, binary op a b = .error c →
      c = .divisionByZero ∨ c = .illegalOperation (complaint op a b)) ∧
    (∀ op d, binary op a b = .ok d → d.Plain) ∧
    (∀ op ∈ tests, ∀ d, binary op a b = .ok d → d = int 0 ∨ d = int 1) ∧
    ((∃ d, binary .eq a b = .ok d) ∨ (∃ d, binary .ne a b = .ok d) →
      ∃ t, binary .eq a b = .ok (ofBool t) ∧ binary .ne a b = .ok (ofBool !t)) ∧
    (∀ s t, a = string s → b = string t → binary .add a b = .ok (string (s ++ t))) ∧
    (∀ s n d, a = string s → b = int n → binary .mul a b = .ok d →
      d = string (String.join (List.replicate n.toInt.toNat s)) ∧ (n ≤ 0 → d = string "")) := by
  have houtcome (op : BinaryOp) := binary_outcome op a b
  refine ⟨fun op => (houtcome op).ok_iff, fun op => (houtcome op).zero_iff, fun op c hc => ?_,
    fun op d => binary_plain, fun op hop d hd => ?_, fun h => ?_, ?_, ?_⟩
  · exact (hc ▸ houtcome op).error_cases
  · obtain ⟨t, rfl⟩ := binary_test hop hd
    exact ofBool_cases t
  · exact eq_ne (h.imp (houtcome .eq).ok_iff.mp (houtcome .ne).ok_iff.mp)
  · rintro s t rfl rfl
    rfl
  · rintro s n d rfl rfl h
    exact mul_repetition h

end Datum

end Minibasic

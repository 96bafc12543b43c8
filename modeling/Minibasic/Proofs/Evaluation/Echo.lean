import Minibasic.Proofs.Evaluation.Metadata
import Minibasic.Proofs.Evaluation.Output
import Minibasic.Proofs.Expr.Words
import Minibasic.Proofs.Number.Integrality
import Minibasic.Proofs.Value.Exact

/-!
Integers that are run as they are shown. Digits stand for themselves, and behind a minus sign for
their product with minus one. So an integer comes back, unless its digits alone are out of range.
-/

namespace Minibasic

/-- The lexeme that a number is written with. -/
def Number.lexeme : Number → Lexeme
  | int n => .int n
  | float x => .float x

/-! ### Tokens -/

namespace Scan

variable {s : Source} {l : Lexeme} {w rest : List Char}

theorem Closed.nil (w : List Char) : Closed w [] := nofun

/-- Only `>` makes more of a minus sign. -/
theorem Closed.minus (h : rest.head? ≠ some '>') : Closed ['-'] rest := by
  intro d hd l hl
  have hlong : front '-' [d] = (.lexeme l, 1) := front_of_spells hl (.nil _)
  have hshort : front '-' [d] = (.lexeme .minus, 0) :=
    oneOrTwo_short fun hd' => h (hd.trans hd')
  cases hlong.symm.trans hshort

/-- A text that spells a lexeme is one token. -/
theorem tokens_of_spells (h : Spells l s.text.toList) :
    tokens s = .ok [⟨l, .after s [] s.text.toList⟩, endToken s s.text.toList] := by
  have hlast : tokensFrom 0 (.past s s.text.toList) [] = .ok [endToken s s.text.toList] := rfl
  have hfirst : tokensFrom 0 (.past s []) (s.text.toList ++ []) = _ :=
    tokensFrom_spells h (.nil _)
  rw [List.append_nil, List.nil_append, hlast] at hfirst
  exact hfirst

/-- With a minus sign before it there are two. -/
theorem tokens_of_minus (hs : s.text.toList = '-' :: w) (h : Spells l w)
    (hw : w.head? ≠ some '>') :
    tokens s = .ok [⟨.minus, .after s [] ['-']⟩, ⟨l, .after s ['-'] w⟩,
      endToken s s.text.toList] := by
  have hminus : Spells .minus ['-'] := .symbol (by simp [symbols])
  have hlast : tokensFrom 0 (.past s ('-' :: w)) [] = .ok [endToken s ('-' :: w)] := rfl
  have hsecond : tokensFrom 0 (.past s ['-']) (w ++ []) = _ := tokensFrom_spells h (.nil w)
  rw [List.append_nil, List.singleton_append, hlast] at hsecond
  have hfirst : tokensFrom 0 (.past s []) (['-'] ++ w) = _ :=
    tokensFrom_spells hminus (.minus hw)
  rw [List.nil_append, hsecond] at hfirst
  rw [tokens, hs]
  exact hfirst

/-- No token is the least integer. -/
theorem lexeme_ne_least {ts : List Token} (hts : tokens s = .ok ts) :
    ∀ t ∈ ts, t.lexeme ≠ .int Int64.minValue := by
  obtain ⟨read, stop, rfl, hstop, hread⟩ := ((tokens_eq_iff s _).mp hts).spelled ts rfl
  refine List.forall_mem_append.mpr ⟨fun t ht hl => ?_, ?_⟩
  · have hspelled := (hread t ht).2
    rw [hl] at hspelled
    have hnonneg : 0 ≤ Int64.minValue.toInt := hspelled.read_int
    exact absurd hnonneg (by decide)
  · rw [List.forall_mem_singleton, hstop]
    nofun

end Scan

/-! ### Values -/

namespace Interpreter

/-- The source gives `d`, a value that arises at all of its text, and changes nothing. -/
def Yields (i : Interpreter) (s : Source) (d : Datum) : Prop :=
  i.run s = some (.ok
    { datum := d, span := some (.after s [] s.text.toList), context := some i.context }, i)

variable {i : Interpreter} {s : Source} {a b : Number} {w : List Char}

theorem yields_of_eval {fuel : Nat} {ts : List Token} {e : Expr Span} {d : Datum}
    (hts : Scan.tokens s = .ok ts) (he : parse ts = .ok e)
    (hmark : e.mark = .after s [] s.text.toList) (hfuel : fuel ≤ ampleFuel)
    (h : eval fuel e i =
      some (.ok { datum := d, span := some e.mark, context := some i.context }, i)) :
    i.Yields s d := by
  have hrun : i.run s = eval ampleFuel e i := by
    change evalSource ampleFuel s i = _
    rw [evalSource_of_tokens ampleFuel hts, he]
  rw [Yields, hrun, ← hmark]
  exact eval_of_le hfuel h

/-- A number that is written without a sign gives itself. -/
theorem yields_of_spells (h : Scan.Spells a.lexeme s.text.toList) :
    i.Yields s (.number a) := by
  have he (p q : Span) : parse [⟨a.lexeme, p⟩, ⟨.eof, q⟩] = .ok (.number p a) := by
    cases a <;> rfl
  exact yields_of_eval (Scan.tokens_of_spells h) (he _ _) rfl (by decide : 1 ≤ ampleFuel) rfl

theorem eval_minus (hneg : Datum.unary .minus (.number a) = .ok (.number b)) (p q : Span) :
    eval 2 (.unary p .minus (.number q a)) i =
      some (.ok { datum := .number b, span := some p, context := some i.context }, i) := by
  change tagResult p p (Datum.unary .minus (.number a)) i = _
  rw [hneg]
  rfl

/-- Behind a minus sign it gives its product with minus one. -/
theorem yields_of_minus (hs : s.text.toList = '-' :: w) (h : Scan.Spells a.lexeme w)
    (hw : w.head? ≠ some '>') (hneg : Datum.unary .minus (.number a) = .ok (.number b)) :
    i.Yields s (.number b) := by
  have he (p q r : Span) : parse [⟨.minus, p⟩, ⟨a.lexeme, q⟩, ⟨.eof, r⟩] =
      .ok (.unary (p.join q) .minus (.number q a)) := by
    cases a <;> rfl
  refine yields_of_eval (Scan.tokens_of_minus hs h hw) (he _ _ _) ?_ (by decide)
    (eval_minus hneg _ _)
  rw [hs]
  rfl

end Interpreter

/-! ### Integers -/

namespace Decimal

theorem ofInt_ofNat (m : Nat) : ofInt (.ofNat m) = digits m := rfl

theorem ofInt_negSucc (m : Nat) : ofInt (.negSucc m) = '-' :: digits (m + 1) :=
  if_pos (Int.negSucc_lt_zero m)

theorem head?_digits_ne {c : Char} (hc : isDigit c = false) (m : Nat) :
    (digits m).head? ≠ some c := by
  intro h
  have hdigit := isDigit_of_mem_digits m c (List.mem_of_head? h)
  rw [hc] at hdigit
  cases hdigit

end Decimal

namespace Scan

variable {n : Int64} {m : Nat}

/-- Digits in range spell an integer. -/
theorem spells_digits (h : n.toInt = m) : Spells (Number.int n).lexeme (Decimal.digits m) := by
  have hvalue : n.toInt = Decimal.value (Decimal.digits m) := by rw [Decimal.value_digits, h]
  exact .int (Decimal.digits_ne_nil m) (Decimal.isDigit_of_mem_digits m) hvalue

/-- Digits out of range spell a float. -/
theorem spells_large_digits (h : Int64.maxValue.toInt < m) :
    Spells (Number.float (.ofNat m)).lexeme (Decimal.digits m) := by
  rw [← Decimal.value_digits m] at h
  have hspells := Spells.large (Decimal.digits_ne_nil m) (Decimal.isDigit_of_mem_digits m) h
  rwa [Decimal.value_digits] at hspells

end Scan

/-- As a float, minus one times `2 ^ 63` is exact. -/
theorem Datum.unary_minus_large :
    unary .minus (.number (.float (.ofNat 9223372036854775808))) = .ok (.number .leastFloat) :=
  rfl

namespace Interpreter

variable {n : Int64}

theorem toList_echo_int (n : Int64) (name : String) :
    (Source.mk name (Datum.int n).echo).text.toList = Decimal.ofInt n.toInt :=
  String.toList_ofList

theorem yields_echo_int (hn : Int64.minValue < n) (name : String) (i : Interpreter) :
    i.Yields ⟨name, (Datum.int n).echo⟩ (.int n) := by
  have htext := toList_echo_int n name
  cases h : n.toInt with
  | ofNat m =>
    rw [h, Decimal.ofInt_ofNat] at htext
    refine yields_of_spells (a := .int n) ?_
    rw [htext]
    exact Scan.spells_digits h
  | negSucc m =>
    rw [h, Decimal.ofInt_negSucc] at htext
    have hrange : InRange (m + 1 : Nat) := by
      have hleast := Int64.lt_iff_toInt_lt.mp hn
      rw [h] at hleast
      have hl : Int64.minValue.toInt = -9223372036854775808 := rfl
      have hu : Int64.maxValue.toInt = 9223372036854775807 := rfl
      rw [InRange, hl, hu]
      omega
    obtain ⟨k, hk⟩ := inRange_iff.mp hrange
    have hk := int64?_eq_some_iff.mp hk
    have hneg : n.toInt = UnaryOp.minus.exact k.toInt := by rw [hk, h]; rfl
    exact yields_of_minus htext (Scan.spells_digits hk) (Decimal.head?_digits_ne rfl _)
      (Datum.unary_exact hneg)

theorem yields_echo_least (name : String) (i : Interpreter) :
    i.Yields ⟨name, (Datum.int Int64.minValue).echo⟩ (.number .leastFloat) := by
  have htext := toList_echo_int Int64.minValue name
  have hleast : Int64.minValue.toInt = .negSucc 9223372036854775807 := rfl
  rw [hleast, Decimal.ofInt_negSucc] at htext
  have hlarge : Int64.maxValue.toInt < (9223372036854775807 + 1 : Nat) := by decide
  exact yields_of_minus htext (Scan.spells_large_digits hlarge) (Decimal.head?_digits_ne rfl _)
    Datum.unary_minus_large

/-- The text that an integer is shown with gives the integer again. The least one is the exception:
its digits are no integer behind the sign, and what they give is the float of its value. -/
theorem echo_int_yields (i : Interpreter) (name : String) :
    (∀ n : Int64, Int64.minValue < n → i.Yields ⟨name, (Datum.int n).echo⟩ (.int n)) ∧
    i.Yields ⟨name, (Datum.int Int64.minValue).echo⟩ (.number .leastFloat) ∧
    Number.leastFloat.value? = some (Int64.minValue.toInt : ℚ) ∧
    ∀ s ts, Scan.tokens s = .ok ts → ∀ t ∈ ts, t.lexeme ≠ .int Int64.minValue :=
  ⟨fun _ hn => yields_echo_int hn name i, yields_echo_least name i, Number.leastFloat_value?,
    fun _ _ hts => Scan.lexeme_ne_least hts⟩

/-- The integer after the least one. -/
theorem echo_int_yields_second : Int64.minValue < -9223372036854775807 ∧
    (global []).Yields ⟨"<stdin>", "-9223372036854775807"⟩ (.int (-9223372036854775807)) := by
  have hn : Int64.minValue < -9223372036854775807 := by decide
  have htext : (Datum.int (-9223372036854775807)).echo = "-9223372036854775807" := by
    decide +kernel
  have h := (echo_int_yields (global []) "<stdin>").1 (-9223372036854775807) hn
  rw [htext] at h
  exact ⟨hn, h⟩

end Interpreter

end Minibasic

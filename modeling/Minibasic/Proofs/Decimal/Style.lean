import Mathlib.Algebra.Field.Rat
import Mathlib.Algebra.GroupWithZero.Basic
import Mathlib.Algebra.Order.Field.Rat
import Mathlib.Data.List.TakeWhile
import Mathlib.Tactic.FieldSimp
import Mathlib.Tactic.NormNum
import Minibasic.Decimal.Style
import Minibasic.Proofs.Decimal.Digits

/-!
Decimal texts read back. A text of digits with a point and a power of ten stands for one number,
whether it is written positionally or not.
-/

namespace Minibasic.Decimal

/-! ### Reading -/

/-- What stands before the first `c`. -/
def upTo (c : Char) (cs : List Char) : List Char := cs.takeWhile (· ≠ c)

/-- What stands behind the first `c`. -/
def behind (c : Char) (cs : List Char) : List Char := (cs.dropWhile (· ≠ c)).drop 1

/-- The number that a text stands for: digits, with a point among them or not, and a power of
ten. -/
def reading (cs : List Char) : ℚ :=
  let whole := upTo '.' (upTo 'e' cs)
  let fraction := behind '.' (upTo 'e' cs)
  let exponent := (toInt? (behind 'e' cs)).getD 0
  value (whole ++ fraction) * 10 ^ (exponent - fraction.length)

section Parts

variable {c : Char} {cs ds : List Char}

theorem upTo_append_cons (h : c ∉ cs) (ds : List Char) : upTo c (cs ++ c :: ds) = cs := by
  have hall : ∀ d ∈ cs, decide (d ≠ c) = true := fun d hd =>
    decide_eq_true fun hdc => h (hdc ▸ hd)
  rw [upTo, List.takeWhile_append_of_pos hall]
  simp

theorem behind_append_cons (h : c ∉ cs) (ds : List Char) : behind c (cs ++ c :: ds) = ds := by
  have hall : ∀ d ∈ cs, decide (d ≠ c) = true := fun d hd =>
    decide_eq_true fun hdc => h (hdc ▸ hd)
  rw [behind, List.dropWhile_append_of_pos hall]
  simp

theorem upTo_of_notMem (h : c ∉ cs) : upTo c cs = cs := by
  refine List.takeWhile_eq_self_iff.mpr fun d hd => decide_eq_true fun hdc => h (hdc ▸ hd)

theorem behind_of_notMem (h : c ∉ cs) : behind c cs = [] := by
  have hall : ∀ d ∈ cs, decide (d ≠ c) = true := fun d hd =>
    decide_eq_true fun hdc => h (hdc ▸ hd)
  rw [behind, List.dropWhile_eq_nil_iff.mpr hall, List.drop_nil]

/-- Digits are neither points nor marks nor signs. -/
theorem notMem_of_digits (h : ∀ d ∈ cs, isDigit d) (hc : isDigit c = false) : c ∉ cs :=
  fun hmem => absurd (h c hmem) (by rw [hc]; decide)

theorem reading_point (hcs : ∀ d ∈ cs, isDigit d) (hds : ∀ d ∈ ds, isDigit d) :
    reading (cs ++ '.' :: ds) = value (cs ++ ds) * 10 ^ (-(ds.length : Int)) := by
  have hpoint := notMem_of_digits (c := '.') hcs rfl
  have hmark : 'e' ∉ cs ++ '.' :: ds := by
    simp [notMem_of_digits (c := 'e') hcs rfl, notMem_of_digits (c := 'e') hds rfl]
  simp only [reading, upTo_of_notMem hmark, behind_of_notMem hmark, upTo_append_cons hpoint,
    behind_append_cons hpoint]
  congr 2
  exact Int.zero_sub _

theorem toNat?_digits (n : Nat) : toNat? (digits n) = some n := by
  have hall : (digits n).all isDigit := List.all_eq_true.mpr (isDigit_of_mem_digits n)
  simp [toNat?, digits_ne_nil, hall, value_digits]

theorem toInt?_ofInt (n : Int) : toInt? (ofInt n) = some n := by
  unfold ofInt
  split
  · simp only [toInt?, toNat?_digits, Option.map_some, Option.some.injEq, Int.ofNat_eq_natCast]
    omega
  · have hnot {c : Char} (hc : isDigit c = false) : ∀ cs, digits n.natAbs ≠ c :: cs :=
      fun cs hcs => notMem_of_digits (isDigit_of_mem_digits _) hc (hcs ▸ List.mem_cons_self)
    unfold toInt?
    split
    · exact absurd ‹_› (hnot rfl _)
    · exact absurd ‹_› (hnot rfl _)
    · simp only [toNat?_digits, Option.map_some, Option.some.injEq, Int.ofNat_eq_natCast]
      omega

end Parts

/-! ### Numbers with digits behind the point -/

namespace Scientific

def value (s : Scientific) : ℚ := Decimal.value s.digits * 10 ^ (s.point - s.digits.length)

/-- There are digits, and nothing else. -/
structure Proper (s : Scientific) : Prop where
  nonempty : s.digits ≠ []
  isDigit : ∀ c ∈ s.digits, isDigit c

/-- Digits without zeros at their end, and the zeros. -/
theorem eq_append_zeros (ds : List Char) :
    ∃ k, ds = (ds.reverse.dropWhile (· = '0')).reverse ++ List.replicate k '0' := by
  refine ⟨(ds.reverse.takeWhile (· = '0')).length, ?_⟩
  have hzeros : ds.reverse.takeWhile (· = '0') =
      List.replicate (ds.reverse.takeWhile (· = '0')).length '0' := by
    refine List.eq_replicate_of_mem fun c hc => ?_
    simpa using List.mem_takeWhile_imp hc
  rw [← List.reverse_replicate, ← hzeros, ← List.reverse_append,
    List.takeWhile_append_dropWhile, List.reverse_reverse]

theorem value_ofNat (n : Nat) (e : Int) : (ofNat n e).value = n * 10 ^ e := by
  obtain ⟨k, hk⟩ := eq_append_zeros (Decimal.digits n)
  have hlength := congrArg List.length hk
  have hn : n = Decimal.value (ofNat n e).digits * 10 ^ k := by
    conv_lhs => rw [← value_digits n, hk, value_append, value_zeros, List.length_replicate]
    rfl
  rw [List.length_append, List.length_replicate] at hlength
  have hpoint : (ofNat n e).point - (ofNat n e).digits.length = k + e := by
    change e + ((Decimal.digits n).length : Int) - _ = _
    rw [hlength]
    change e + (((ofNat n e).digits.length + k : Nat) : Int) - _ = _
    push_cast
    ring
  calc (ofNat n e).value
      = Decimal.value (ofNat n e).digits * (10 ^ (k : Int) * 10 ^ e) := by
        rw [value, hpoint, zpow_add₀ (by norm_num)]
    _ = (Decimal.value (ofNat n e).digits * 10 ^ k : Nat) * 10 ^ e := by
        push_cast
        rw [zpow_natCast, mul_assoc]
    _ = n * 10 ^ e := by rw [← hn]

theorem proper_ofNat {n : Nat} (hn : 0 < n) (e : Int) : (ofNat n e).Proper where
  nonempty := by
    intro hnil
    have hvalue := value_ofNat n e
    rw [value, hnil] at hvalue
    have hpos : (0 : ℚ) < n * 10 ^ e := mul_pos (Nat.cast_pos.mpr hn) (zpow_pos (by norm_num) e)
    rw [← hvalue] at hpos
    simp [Decimal.value, valueFrom] at hpos
  isDigit c hc := by
    refine isDigit_of_mem_digits n c ?_
    have hmem := List.mem_reverse.mp hc
    exact List.mem_reverse.mp ((List.dropWhile_sublist _).subset hmem)

variable {s : Scientific}

theorem Proper.take (h : s.Proper) (n : Nat) : ∀ c ∈ s.digits.take n, Decimal.isDigit c :=
  fun c hc => h.isDigit c (List.mem_of_mem_take hc)

theorem Proper.drop (h : s.Proper) (n : Nat) : ∀ c ∈ s.digits.drop n, Decimal.isDigit c :=
  fun c hc => h.isDigit c (List.mem_of_mem_drop hc)

theorem isDigit_zeros (k : Nat) : ∀ c ∈ List.replicate k '0', Decimal.isDigit c := fun c hc => by
  rw [List.eq_of_mem_replicate hc]
  rfl

/-- The positional text: digits, a point and digits. -/
theorem positional_eq (h : s.Proper) : ∃ cs ds, s.positional = cs ++ '.' :: ds ∧ cs ≠ [] ∧
    (∀ c ∈ cs, Decimal.isDigit c) ∧ (∀ c ∈ ds, Decimal.isDigit c) ∧
    (Decimal.value (cs ++ ds) : ℚ) * 10 ^ (-(ds.length : Int)) = s.value := by
  have hlength := List.length_pos_iff.mpr h.nonempty
  unfold positional
  split
  next hpoint =>
    refine ⟨['0'], List.replicate (-s.point).toNat '0' ++ s.digits, by simp, by simp,
      isDigit_zeros 1, ?_, ?_⟩
    · intro c hc
      exact (List.mem_append.mp hc).elim (isDigit_zeros _ c) (h.isDigit c)
    · have hvalue : Decimal.value (['0'] ++ (List.replicate (-s.point).toNat '0' ++ s.digits)) =
          Decimal.value s.digits := by
        rw [← List.append_assoc, value_append, value_append, value_zeros]
        simp [Decimal.value, valueFrom, digitValue]
      rw [hvalue, Scientific.value, List.length_append, List.length_replicate]
      congr 2
      omega
  next hpoint =>
    obtain ⟨n, hn⟩ : ∃ n : Nat, s.point.toNat = n ∧ s.point = n := ⟨s.point.toNat, rfl, by omega⟩
    dsimp only
    rw [hn.1]
    by_cases hle : s.digits.length ≤ n
    · -- all digits stand before the point
      have hdrop : s.digits.drop n = [] := List.drop_eq_nil_iff.mpr hle
      refine ⟨s.digits.take n ++ List.replicate (n - s.digits.length) '0', ['0'], ?_, ?_, ?_,
        isDigit_zeros 1, ?_⟩
      · rw [hdrop]
        rfl
      · simp [List.take_of_length_le hle, h.nonempty]
      · intro c hc
        exact (List.mem_append.mp hc).elim (h.take n c) (isDigit_zeros _ c)
      · have hexponent : s.point - s.digits.length = (n - s.digits.length : Nat) := by omega
        rw [Scientific.value, hexponent, value_append, value_append, value_zeros,
          List.take_of_length_le hle, List.length_replicate]
        simp [Decimal.value, valueFrom, digitValue]
    · have hdrop : s.digits.drop n ≠ [] := mt List.drop_eq_nil_iff.mp hle
      refine ⟨s.digits.take n, s.digits.drop n, ?_, ?_, h.take n, h.drop n, ?_⟩
      · simp [hdrop, Nat.sub_eq_zero_of_le (Nat.le_of_not_le hle)]
      · simp [h.nonempty]
        omega
      · rw [List.take_append_drop, Scientific.value, List.length_drop]
        congr 2
        omega

theorem reading_positional (h : s.Proper) : reading s.positional = s.value := by
  obtain ⟨cs, ds, htext, -, hcs, hds, hvalue⟩ := positional_eq h
  rw [htext, reading_point hcs hds, hvalue]

/-- One digit before the point, and a power of ten. -/
theorem reading_exponential (h : s.Proper) : reading (s.exponential ['e']) = s.value := by
  have hfirst := notMem_of_digits (c := '.') (h.take 1) rfl
  obtain ⟨front, hfront, hwhole, hfraction⟩ : ∃ front,
      s.digits.take 1 ++ (if (s.digits.drop 1).isEmpty then [] else '.' :: s.digits.drop 1) =
        front ∧ upTo '.' front = s.digits.take 1 ∧ behind '.' front = s.digits.drop 1 := by
    refine ⟨_, rfl, ?_⟩
    split
    next hempty =>
      rw [List.append_nil, upTo_of_notMem hfirst, behind_of_notMem hfirst,
        List.isEmpty_iff.mp hempty]
      exact ⟨rfl, rfl⟩
    next => exact ⟨upTo_append_cons hfirst _, behind_append_cons hfirst _⟩
  have hmark : 'e' ∉ front := by
    have htake := notMem_of_digits (c := 'e') (h.take 1) rfl
    have hdrop := notMem_of_digits (c := 'e') (h.drop 1) rfl
    rw [← hfront, List.mem_append, not_or]
    refine ⟨htake, ?_⟩
    split
    · exact List.not_mem_nil
    · exact List.not_mem_cons_of_ne_of_not_mem (by decide) hdrop
  have htext : s.exponential ['e'] = front ++ 'e' :: ofInt (s.point - 1) := by
    rw [← hfront]
    simp [exponential]
  have hlength := List.length_pos_iff.mpr h.nonempty
  simp only [reading, htext, upTo_append_cons hmark, behind_append_cons hmark, hwhole, hfraction,
    List.take_append_drop, toInt?_ofInt, Option.getD_some, List.length_drop]
  rw [Scientific.value]
  congr 2
  omega

end Scientific

/-! ### Texts of positive numbers -/

/-- What the text of a float is made of. -/
def isNumeralChar (c : Char) : Bool := isDigit c || c = '.' || c = 'e' || c = '-'

section Texts

variable {s : Scientific}

theorem reading_scientific (h : s.Proper) : reading (Style.plain.scientific s) = s.value := by
  unfold Style.scientific
  split
  · exact Scientific.reading_positional h
  · exact Scientific.reading_exponential h

theorem isNumeralChar_of_isDigit {c : Char} (h : isDigit c) : isNumeralChar c := by
  simp [isNumeralChar, h]

theorem isNumeralChar_ofInt (n : Int) : ∀ c ∈ ofInt n, isNumeralChar c := by
  have hdigits : ∀ c ∈ digits n.natAbs, isNumeralChar c :=
    fun c hc => isNumeralChar_of_isDigit (isDigit_of_mem_digits _ c hc)
  unfold ofInt
  split
  · exact List.forall_mem_cons.mpr ⟨rfl, hdigits⟩
  · exact hdigits

/-- The text of a number: it starts with a digit and is not made of digits alone. -/
def IsNumeral (cs : List Char) : Prop :=
  ∃ c ds, cs = c :: ds ∧ isDigit c ∧ (∀ d ∈ ds, isNumeralChar d) ∧ ∃ d ∈ ds, isDigit d = false

theorem isNumeral_positional (h : s.Proper) : IsNumeral s.positional := by
  obtain ⟨cs, ds, htext, hne, hcs, hds, -⟩ := Scientific.positional_eq h
  obtain ⟨c, cs, rfl⟩ := List.exists_cons_of_ne_nil hne
  obtain ⟨hc, hcs⟩ := List.forall_mem_cons.mp hcs
  refine ⟨c, cs ++ '.' :: ds, htext, hc, fun d hd => ?_, '.', by simp, rfl⟩
  rcases List.mem_append.mp hd with hd | hd
  · exact isNumeralChar_of_isDigit (hcs d hd)
  · rcases List.mem_cons.mp hd with rfl | hd
    · rfl
    · exact isNumeralChar_of_isDigit (hds d hd)

theorem isNumeral_exponential (h : s.Proper) : IsNumeral (s.exponential ['e']) := by
  obtain ⟨c, cs, hdigits⟩ := List.exists_cons_of_ne_nil h.nonempty
  obtain ⟨hc, hcs⟩ := List.forall_mem_cons.mp (hdigits ▸ h.isDigit)
  have htext : s.exponential ['e'] =
      c :: ((if cs.isEmpty then [] else '.' :: cs) ++ 'e' :: ofInt (s.point - 1)) := by
    simp [Scientific.exponential, hdigits]
  refine ⟨c, _, htext, hc, fun d hd => ?_, 'e', by simp, rfl⟩
  rcases List.mem_append.mp hd with hd | hd
  · split at hd
    · cases hd
    · rcases List.mem_cons.mp hd with rfl | hd
      · rfl
      · exact isNumeralChar_of_isDigit (hcs d hd)
  · rcases List.mem_cons.mp hd with rfl | hd
    · rfl
    · exact isNumeralChar_ofInt _ d hd

theorem isNumeral_scientific (h : s.Proper) : IsNumeral (Style.plain.scientific s) := by
  unfold Style.scientific
  split
  · exact isNumeral_positional h
  · exact isNumeral_exponential h

end Texts

end Minibasic.Decimal

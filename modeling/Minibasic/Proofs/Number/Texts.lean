import Minibasic.Proofs.Decimal.Shortest
import Minibasic.Proofs.Decimal.Style
import Minibasic.Proofs.Number.Unsigned

/-!
The texts of numbers. The text of a float stands for a number that rounds to it and to no other, so
numbers that are written alike are the same.
-/

namespace Minibasic

open Decimal (Canonical Narrow reading IsNumeral)
open Decimal.Rounding (Contains)

namespace Binary

theorem canonical_ofBits (bits : Nat) :
    Canonical (ofBits bits).mantissa (ofBits bits).exponent := by
  have hfraction : bits % leadingBit < 2 ^ 52 := Nat.mod_lt bits (by decide)
  have hleading : leadingBit = 2 ^ 52 := rfl
  have hleast : leastExponent = -1074 := rfl
  simp only [ofBits]
  split
  · exact ⟨by omega, .inr hleast, by omega⟩
  · exact ⟨by omega, .inl (by omega), by omega⟩

/-- Sign, mantissa and exponent are all there is in a word. -/
theorem ofBits_injective {bits bits' : Nat} (hb : bits < 2 ^ 64) (hb' : bits' < 2 ^ 64)
    (h : ofBits bits = ofBits bits') : bits = bits' := by
  have hleading : leadingBit = 2 ^ 52 := rfl
  have hleast : leastExponent = -1074 := rfl
  simp only [ofBits, mk.injEq, decide_eq_decide, hleading, hleast] at h
  obtain ⟨hsign, hmantissa, hexponent⟩ := h
  have hsplit (n : Nat) :
      n = n / 2 ^ 52 / 2048 * 2 ^ 63 + n / 2 ^ 52 % 2048 * 2 ^ 52 + n % 2 ^ 52 := by
    omega
  have hs : bits / 2 ^ 52 / 2048 = bits' / 2 ^ 52 / 2048 := by omega
  have hlt (n : Nat) : n % 2 ^ 52 < 2 ^ 52 := Nat.mod_lt n (by decide)
  have h1 := hlt bits
  have h2 := hlt bits'
  have he : bits / 2 ^ 52 % 2048 = bits' / 2 ^ 52 % 2048 ∧ bits % 2 ^ 52 = bits' % 2 ^ 52 := by
    split at hmantissa <;> split at hmantissa <;> omega
  rw [hsplit bits, hsplit bits', hs, he.1, he.2]

variable {b b' : Binary}

/-- The text of a number other than zero stands for one that rounds to it. -/
theorem plain_binary (hc : Canonical b.mantissa b.exponent) (hn : b.negative = false)
    (hm : b.mantissa ≠ 0) : ∃ narrow s, (narrow = true ↔ Narrow b.mantissa b.exponent) ∧
      s.Proper ∧ Decimal.Style.plain.binary b = Decimal.Style.plain.scientific s ∧
      Contains (.ofBinary b.mantissa b.exponent narrow) s.value := by
  obtain ⟨narrow, hnarrow⟩ : ∃ narrow : Bool,
      narrow = decide (b.mantissa = leadingBit ∧ leastExponent < b.exponent) := ⟨_, rfl⟩
  have hiff : narrow = true ↔ Narrow b.mantissa b.exponent := by
    rw [hnarrow, decide_eq_true_iff]
    exact Iff.rfl
  have hsome := Decimal.Rounding.nearest_ofBinary_isSome (Nat.pos_of_ne_zero hm) hc hiff.mp true
  obtain ⟨n, e, hholds, hs⟩ := Decimal.exists_shortest hsome
  have hcontains := Decimal.Rounding.holds_iff.mp hholds
  have hpos := Decimal.Rounding.pos_of_contains (Nat.pos_of_ne_zero hm) hcontains
  have hn' : 0 < n := by
    refine Nat.pos_of_ne_zero fun h0 => ?_
    simp [h0] at hpos
  refine ⟨narrow, .ofNat n e, hiff, Decimal.Scientific.proper_ofNat hn' e, ?_, ?_⟩
  · simp only [Decimal.Style.binary, hn, if_neg hm, Bool.false_eq_true, if_false,
      List.nil_append, ← hnarrow]
    exact congrArg _ hs
  · rwa [Decimal.Scientific.value_ofNat]

theorem plain_binary_zero (hn : b.negative = false) (hm : b.mantissa = 0) :
    Decimal.Style.plain.binary b = ['0', '.', '0'] := by
  simp [Decimal.Style.binary, hn, hm]

theorem reading_zero : reading ['0', '.', '0'] = 0 := by
  have hdigits : ∀ c ∈ ['0'], Decimal.isDigit c := Decimal.Scientific.isDigit_zeros 1
  rw [show ['0', '.', '0'] = ['0'] ++ '.' :: ['0'] from rfl,
    Decimal.reading_point hdigits hdigits]
  simp [Decimal.value, Decimal.valueFrom, Decimal.digitValue]

/-- The text of a number tells its mantissa and its exponent. -/
theorem plain_binary_injective (hc : Canonical b.mantissa b.exponent)
    (hc' : Canonical b'.mantissa b'.exponent) (hn : b.negative = false)
    (hn' : b'.negative = false)
    (h : Decimal.Style.plain.binary b = Decimal.Style.plain.binary b') : b = b' := by
  have hreading {b : Binary} (hc : Canonical b.mantissa b.exponent) (hn : b.negative = false)
      (hm : b.mantissa ≠ 0) : ∃ narrow, (narrow = true ↔ Narrow b.mantissa b.exponent) ∧
      Contains (.ofBinary b.mantissa b.exponent narrow)
        (reading (Decimal.Style.plain.binary b)) := by
    obtain ⟨narrow, s, hnarrow, hs, htext, hcontains⟩ := plain_binary hc hn hm
    rw [htext, Decimal.reading_scientific hs]
    exact ⟨narrow, hnarrow, hcontains⟩
  have hzero {b : Binary} (hc : Canonical b.mantissa b.exponent) (hn : b.negative = false)
      (hr : reading (Decimal.Style.plain.binary b) = 0) : b.mantissa = 0 := by
    by_contra hm
    obtain ⟨narrow, -, hcontains⟩ := hreading hc hn hm
    exact (Decimal.Rounding.pos_of_contains (Nat.pos_of_ne_zero hm) hcontains).ne' hr
  have hboth : b.mantissa = b'.mantissa ∧ b.exponent = b'.exponent := by
    by_cases hm : b.mantissa = 0
    · have hr : reading (Decimal.Style.plain.binary b') = 0 := by
        rw [← h, plain_binary_zero hn hm, reading_zero]
      have hm' := hzero hc' hn' hr
      have hle := hc.le
      have hle' := hc'.le
      omega
    · by_cases hm' : b'.mantissa = 0
      · have hr : reading (Decimal.Style.plain.binary b) = 0 := by
          rw [h, plain_binary_zero hn' hm', reading_zero]
        exact absurd (hzero hc hn hr) hm
      · obtain ⟨narrow, hnarrow, hcontains⟩ := hreading hc hn hm
        obtain ⟨narrow', hnarrow', hcontains'⟩ := hreading hc' hn' hm'
        rw [← h] at hcontains'
        exact Decimal.Rounding.eq_of_contains hc hc' hnarrow.mpr hnarrow'.mpr hcontains
          hcontains'
  obtain ⟨negative, m, e⟩ := b
  obtain ⟨negative', m', e'⟩ := b'
  obtain rfl : negative = false := hn
  obtain rfl : negative' = false := hn'
  obtain ⟨rfl, rfl⟩ : m = m' ∧ e = e' := hboth
  rfl

theorem isNumeral_plain_binary (hc : Canonical b.mantissa b.exponent)
    (hn : b.negative = false) : IsNumeral (Decimal.Style.plain.binary b) := by
  by_cases hm : b.mantissa = 0
  · rw [plain_binary_zero hn hm]
    exact ⟨'0', ['.', '0'], rfl, rfl, List.all_eq_true.mp rfl, '.', List.mem_cons_self, rfl⟩
  · obtain ⟨narrow, s, -, hs, htext, -⟩ := plain_binary hc hn hm
    rw [htext]
    exact Decimal.isNumeral_scientific hs

end Binary

/-! ### Numbers that are read -/

/-- Two floats of the same bits are the same. -/
theorem eq_of_toBits_eq {x y : Float} (h : x.toBits = y.toBits) : x = y := by
  obtain ⟨⟨w, hw⟩⟩ := x
  obtain ⟨⟨w', hw'⟩⟩ := y
  obtain rfl : w = w' := h
  rfl

namespace Number

/-- Numbers as they are read: without a sign, and defined. -/
def Read : Number → Prop
  | int n => 0 ≤ n.toInt
  | float x => Unsigned x.toModel.unpack

/-- The number is a float beyond all others. -/
def isInfinite : Number → Bool
  | int _ => false
  | float x => FloatForm.ofFloat x = .infinite false

variable {a b : Number}

theorem text_of_isInfinite (h : a.isInfinite) : a.text = ['i', 'n', 'f'] := by
  cases a with
  | int n => cases h
  | float x => simp [text, Decimal.Style.float, of_decide_eq_true h, Decimal.Style.plain]

/-- What a float that is read and finite is made of. -/
theorem Read.finite {x : Float} (h : (float x).Read) (hx : ¬(float x).isInfinite) :
    (Binary.ofBits x.toBits.toNat).negative = false ∧
      (float x).text = Decimal.Style.plain.binary (.ofBits x.toBits.toNat) := by
  rcases ofFloat_of_unsigned h with hinf | ⟨hform, hn⟩
  · exact absurd (decide_eq_true hinf) hx
  · exact ⟨hn, by rw [text, Decimal.Style.float, hform]⟩

theorem Read.text_int {n : Int64} (h : (int n).Read) :
    (int n).text = Decimal.digits n.toInt.natAbs :=
  if_neg (Int.not_lt.mpr h)

/-- An integer is written with digits alone, a float is not. -/
theorem Read.text_shape (h : a.Read) (hx : ¬a.isInfinite) :
    ∃ c cs, a.text = c :: cs ∧ Decimal.isDigit c ∧ (∀ d ∈ cs, Decimal.isNumeralChar d) ∧
      ((∀ d ∈ cs, Decimal.isDigit d) ↔ ∃ n, a = int n) := by
  cases a with
  | int n =>
    rw [h.text_int]
    obtain ⟨c, cs, hdigits⟩ := List.exists_cons_of_ne_nil (Decimal.digits_ne_nil n.toInt.natAbs)
    obtain ⟨hc, hcs⟩ := List.forall_mem_cons.mp
      (hdigits ▸ Decimal.isDigit_of_mem_digits n.toInt.natAbs)
    exact ⟨c, cs, hdigits, hc, fun d hd => Decimal.isNumeralChar_of_isDigit (hcs d hd),
      iff_of_true hcs ⟨n, rfl⟩⟩
  | float x =>
    obtain ⟨hn, htext⟩ := h.finite hx
    obtain ⟨c, cs, hcs, hc, hall, d, hd, hdigit⟩ :=
      Binary.isNumeral_plain_binary (Binary.canonical_ofBits _) hn
    refine ⟨c, cs, htext.trans hcs, hc, hall, iff_of_false (fun hdigits => ?_) nofun⟩
    exact absurd (hdigits d hd) (by rw [hdigit]; decide)

/-- Numbers that are read and written alike are the same, unless they are infinite. -/
theorem text_injective (ha : a.Read) (hb : b.Read) (ha' : ¬a.isInfinite) (hb' : ¬b.isInfinite)
    (h : a.text = b.text) : a = b := by
  obtain ⟨c, cs, hc, -, -, hint⟩ := ha.text_shape ha'
  obtain ⟨c', cs', hc', -, -, hint'⟩ := hb.text_shape hb'
  obtain ⟨-, rfl⟩ := List.cons.inj (hc.symm.trans (h.trans hc'))
  cases a with
  | int n =>
    obtain ⟨n', rfl⟩ := hint'.mp (hint.mpr ⟨n, rfl⟩)
    rw [ha.text_int, hb.text_int] at h
    have hle : 0 ≤ n.toInt := ha
    have hle' : 0 ≤ n'.toInt := hb
    have habs := Decimal.digits_injective h
    rw [Int64.toInt_inj.mp (by omega : n.toInt = n'.toInt)]
  | float x =>
    cases b with
    | int n =>
      obtain ⟨n', hn'⟩ := hint.mp (hint'.mpr ⟨n, rfl⟩)
      cases hn'
    | float y =>
      obtain ⟨hn, htext⟩ := ha.finite ha'
      obtain ⟨hn', htext'⟩ := hb.finite hb'
      rw [htext, htext'] at h
      have heq := Binary.plain_binary_injective (Binary.canonical_ofBits _)
        (Binary.canonical_ofBits _) hn hn' h
      have hbits := Binary.ofBits_injective x.toBits.toNat_lt y.toBits.toNat_lt heq
      rw [eq_of_toBits_eq (UInt64.toNat_inj.mp hbits)]

end Number

end Minibasic

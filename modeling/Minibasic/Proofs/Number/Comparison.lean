import Mathlib
import Minibasic.Proofs.Number.Rounding
import Minibasic.Value.Operators

/-!
The comparison of numbers. Two integers compare exactly, any other two numbers as floats. Integers
in order are next to floats in order, so the two ways agree but where several integers are next to
one float.
-/

namespace Minibasic

theorem Datum.ofBool_eq_one (t : Bool) : Datum.ofBool t = .int 1 ↔ t = true := by
  cases t <;> simp [ofBool, int]

namespace Number

/-- The number is the undefined float. -/
def isNaN : Number → Bool
  | int _ => false
  | float x => x.isNaN

/-- The rank of the float that a number is compared as. -/
def rank? (a : Number) : Option Rank := Rank.ofFloat? a.toFloat

theorem rank?_int (n : Int64) : (int n).rank? = some (.ofInt n.toInt) := by
  have hl := Int64.le_toInt n
  have hu := Int64.toInt_lt n
  exact Rank.ofFloat?_ofInt (by omega)

theorem exists_rank {a : Number} (ha : a.isNaN = false) : ∃ r, a.rank? = some r := by
  cases a with
  | int n => exact ⟨_, rank?_int n⟩
  | float x =>
    have hx := Rank.isSome_ofFloat? x
    rw [isNaN] at ha
    rw [ha] at hx
    exact Option.isSome_iff_exists.mp hx

variable {a b c : Number} {r s t : Rank}

/-- Numbers that are not both integers compare as their ranks. -/
theorem compare?_rank (hmixed : ∀ m n, a = int m → b ≠ int n) (ha : a.rank? = some r)
    (hb : b.rank? = some s) : a.compare? b = some (compare r s) := by
  have hfloat : a.compare? b = if a.toFloat < b.toFloat then some .lt
      else if a.toFloat == b.toFloat then some .eq
      else if b.toFloat < a.toFloat then some .gt else none := by
    cases a with
    | float x => rfl
    | int m =>
      cases b with
      | float y => rfl
      | int n => exact absurd rfl (hmixed m n rfl)
  simp only [hfloat, Rank.lt_iff ha hb, Rank.beq_iff ha hb, Rank.lt_iff hb ha]
  rcases lt_trichotomy r s with h | h | h
  · rw [if_pos h, compare_lt_iff_lt.mpr h]
  · rw [if_neg h.not_lt, if_pos h, compare_eq_iff_eq.mpr h]
  · rw [if_neg h.not_gt, if_neg h.ne', if_pos h, compare_gt_iff_gt.mpr h]

/-- The comparison yields one. -/
def Holds (op : BinaryOp) (a b : Number) : Prop :=
  Datum.binary op (.number a) (.number b) = .ok (.int 1)

theorem holds_le_iff_compare {o : Ordering} (h : a.compare? b = some o) :
    Holds .le a b ↔ o.isLE := by
  change Except.ok (Datum.ofBool _) = _ ↔ _
  rw [Except.ok.injEq, Datum.ofBool_eq_one, h]
  cases o <;> decide

theorem holds_eq_iff_compare {o : Ordering} (h : a.compare? b = some o) :
    Holds .eq a b ↔ o = .eq := by
  change Except.ok (Datum.ofBool _) = _ ↔ _
  rw [Except.ok.injEq, Datum.ofBool_eq_one, h]
  cases o <;> decide

/-- If both numbers are integers, they are in order. -/
def InOrder (a b : Number) : Prop := ∀ m n, a = int m → b = int n → m ≤ n

theorem inOrder_int (m n : Int64) : InOrder (int m) (int n) ↔ m ≤ n :=
  ⟨fun h => h m n rfl rfl, fun h _ _ hm hn => by cases hm; cases hn; exact h⟩

theorem inOrder_of_mixed (hmixed : ∀ m n, a = int m → b ≠ int n) : InOrder a b ∧ InOrder b a :=
  ⟨fun m n hm hn => absurd hn (hmixed m n hm), fun n m hn hm => absurd hn (hmixed m n hm)⟩

theorem rank_mono {m n : Int64} (h : m ≤ n) (ha : (int m).rank? = some r)
    (hb : (int n).rank? = some s) : r ≤ s := by
  rw [rank?_int, Option.some.injEq] at ha hb
  rw [← ha, ← hb]
  exact Rank.ofInt_mono (Int64.le_iff_toInt_le.mp h)

theorem holds_le_iff (ha : a.rank? = some r) (hb : b.rank? = some s) :
    Holds .le a b ↔ r ≤ s ∧ InOrder a b := by
  by_cases hmixed : ∀ m n, a = int m → b ≠ int n
  · have hle : (compare r s).isLE ↔ r ≤ s := Ordering.isLE_iff_ne_gt.trans compare_le_iff_le
    rw [holds_le_iff_compare (compare?_rank hmixed ha hb), hle,
      and_iff_left (inOrder_of_mixed hmixed).1]
  · push Not at hmixed
    obtain ⟨m, n, rfl, rfl⟩ := hmixed
    rw [holds_le_iff_compare (o := compare m n) rfl, Std.isLE_compare, inOrder_int,
      and_iff_right_of_imp fun h => rank_mono h ha hb]

theorem holds_eq_iff (ha : a.rank? = some r) (hb : b.rank? = some s) :
    Holds .eq a b ↔ r = s ∧ InOrder a b ∧ InOrder b a := by
  by_cases hmixed : ∀ m n, a = int m → b ≠ int n
  · rw [holds_eq_iff_compare (compare?_rank hmixed ha hb), compare_eq_iff_eq,
      and_iff_left (inOrder_of_mixed hmixed)]
  · push Not at hmixed
    obtain ⟨m, n, rfl, rfl⟩ := hmixed
    rw [holds_eq_iff_compare (o := compare m n) rfl, Std.compare_eq_iff_eq, inOrder_int,
      inOrder_int]
    constructor
    · rintro rfl
      exact ⟨Option.some.inj (ha.symm.trans hb), Int64.le_refl m, Int64.le_refl m⟩
    · rintro ⟨-, hle, hge⟩
      exact Int64.le_antisymm hle hge

theorem holds_le_total (ha : a.isNaN = false) (hb : b.isNaN = false) :
    Holds .le a b ∨ Holds .le b a := by
  obtain ⟨r, ha⟩ := exists_rank ha
  obtain ⟨s, hb⟩ := exists_rank hb
  rw [holds_le_iff ha hb, holds_le_iff hb ha]
  by_cases hmixed : ∀ m n, a = int m → b ≠ int n
  · obtain ⟨hinOrder, hinOrder'⟩ := inOrder_of_mixed hmixed
    exact (le_total r s).imp (⟨·, hinOrder⟩) (⟨·, hinOrder'⟩)
  · push Not at hmixed
    obtain ⟨m, n, rfl, rfl⟩ := hmixed
    rw [inOrder_int, inOrder_int]
    exact (Int64.le_total m n).imp (fun h => ⟨rank_mono h ha hb, h⟩) fun h => ⟨rank_mono h hb ha, h⟩

theorem holds_eq_iff_le (ha : a.isNaN = false) (hb : b.isNaN = false) :
    Holds .eq a b ↔ Holds .le a b ∧ Holds .le b a := by
  obtain ⟨r, ha⟩ := exists_rank ha
  obtain ⟨s, hb⟩ := exists_rank hb
  rw [holds_eq_iff ha hb, holds_le_iff ha hb, holds_le_iff hb ha, le_antisymm_iff,
    and_and_and_comm]

/-- Two integers in the wrong order, and in between a float that both are next to. -/
def Blurred (a b c : Number) : Prop :=
  ∃ m x n, a = int m ∧ b = float x ∧ c = int n ∧ n < m ∧ a.toFloat == x ∧ x == c.toFloat

theorem holds_le_trans_iff (ha : a.isNaN = false) (hb : b.isNaN = false) (hc : c.isNaN = false)
    (hab : Holds .le a b) (hbc : Holds .le b c) : Holds .le a c ↔ ¬Blurred a b c := by
  obtain ⟨r, ha⟩ := exists_rank ha
  obtain ⟨s, hb⟩ := exists_rank hb
  obtain ⟨t, hc⟩ := exists_rank hc
  rw [holds_le_iff ha hb] at hab
  rw [holds_le_iff hb hc] at hbc
  rw [holds_le_iff ha hc, and_iff_right (hab.1.trans hbc.1)]
  constructor
  · rintro h ⟨m, x, n, rfl, -, rfl, hlt, -⟩
    exact absurd hlt (Int64.not_lt.mpr (h m n rfl rfl))
  · rintro h m n rfl rfl
    cases b with
    | int k => exact Int64.le_trans (hab.2 m k rfl rfl) (hbc.2 k n rfl rfl)
    | float x =>
      -- Were the integers in the wrong order, the three ranks would be the same.
      by_contra hlt
      rw [Int64.not_le] at hlt
      have hle : t ≤ r := rank_mono (Int64.le_of_lt hlt) hc ha
      have hrs : r = s := le_antisymm hab.1 (hbc.1.trans hle)
      have hst : s = t := le_antisymm hbc.1 (hle.trans hab.1)
      exact h ⟨m, x, n, rfl, rfl, rfl, hlt, (Rank.beq_iff ha hb).mpr hrs,
        (Rank.beq_iff hb hc).mpr hst⟩

/-- Comparison is total and, but for integers that are next to one float, transitive. -/
theorem comparison_laws (ha : a.isNaN = false) (hb : b.isNaN = false) (hc : c.isNaN = false) :
    (Holds .le a b ∨ Holds .le b a) ∧
    (Holds .eq a b ↔ Holds .le a b ∧ Holds .le b a) ∧
    (Holds .le a b → Holds .le b c → (Holds .le a c ↔ ¬Blurred a b c)) ∧
    (Holds .eq a b → Holds .eq b c → (Holds .eq a c ↔ ¬(Blurred a b c ∨ Blurred c b a))) := by
  refine ⟨holds_le_total ha hb, holds_eq_iff_le ha hb, holds_le_trans_iff ha hb hc,
    fun hab hbc => ?_⟩
  rw [holds_eq_iff_le ha hb] at hab
  rw [holds_eq_iff_le hb hc] at hbc
  rw [holds_eq_iff_le ha hc, holds_le_trans_iff ha hb hc hab.1 hbc.1,
    holds_le_trans_iff hc hb ha hbc.2 hab.2, not_or]

theorem comparison_laws_mixed :
    (int 1).isNaN = false ∧ (float 1.5).isNaN = false ∧ (int 2).isNaN = false ∧
    (Holds .le (int 1) (float 1.5) ∨ Holds .le (float 1.5) (int 1)) ∧
    (Holds .eq (int 1) (float 1.5) ↔
      Holds .le (int 1) (float 1.5) ∧ Holds .le (float 1.5) (int 1)) ∧
    (Holds .le (int 1) (float 1.5) → Holds .le (float 1.5) (int 2) →
      (Holds .le (int 1) (int 2) ↔ ¬Blurred (int 1) (float 1.5) (int 2))) ∧
    (Holds .eq (int 1) (float 1.5) → Holds .eq (float 1.5) (int 2) →
      (Holds .eq (int 1) (int 2) ↔
        ¬(Blurred (int 1) (float 1.5) (int 2) ∨ Blurred (int 2) (float 1.5) (int 1)))) := by
  have hfloat : (float 1.5).isNaN = false := by decide +kernel
  exact ⟨rfl, hfloat, rfl, comparison_laws rfl hfloat rfl⟩

/-- Two integers that are next to one float are equal to it, but not to each other. -/
theorem comparison_not_transitive :
    (float 9007199254740992).isNaN = false ∧
    Holds .le (int 9007199254740993) (float 9007199254740992) ∧
    Holds .le (float 9007199254740992) (int 9007199254740992) ∧
    ¬Holds .le (int 9007199254740993) (int 9007199254740992) ∧
    Holds .eq (int 9007199254740993) (float 9007199254740992) ∧
    Holds .eq (float 9007199254740992) (int 9007199254740992) ∧
    ¬Holds .eq (int 9007199254740993) (int 9007199254740992) := by
  have hab : (int 9007199254740993).compare? (float 9007199254740992) = some .eq := by
    decide +kernel
  have hbc : (float 9007199254740992).compare? (int 9007199254740992) = some .eq := by
    decide +kernel
  have hac : (int 9007199254740993).compare? (int 9007199254740992) = some .gt := by
    decide +kernel
  rw [holds_le_iff_compare hab, holds_le_iff_compare hbc, holds_le_iff_compare hac,
    holds_eq_iff_compare hab, holds_eq_iff_compare hbc, holds_eq_iff_compare hac]
  decide +kernel

end Number

end Minibasic

import Mathlib
import Minibasic.Number

/-!
The order of floats. Every float but an undefined one has a rank: its sign, then its exponent, then
its mantissa, in the order of numbers that are further and further from zero on the positive side
and the other way round on the negative side. Two floats compare as their ranks do.
-/

namespace Minibasic

open Float.Model (UnpackedFloat)
open Float.Model.UnpackedFloat

theorem compare_toLex {α β : Type} [LinearOrder α] [LinearOrder β] (a c : α) (b d : β) :
    compare (toLex (a, b)) (toLex (c, d)) = (compare a c).then (compare b d) := by
  simp [Prod.Lex.compare_def, compareLex, compareOn]

theorem compare_natCast (m n : Nat) : compare (m : Int) n = compare m n := by
  rw [← cmp_eq_compare, ← cmp_eq_compare]
  exact Nat.strictMono_cast.cmp_map_eq m n

theorem compare_neg (m n : Int) : compare (-m) (-n) = (compare m n).swap := by
  have hneg : StrictAnti fun k : Int => -k := fun _ _ => neg_lt_neg
  rw [← cmp_eq_compare, ← cmp_eq_compare, cmp_swap]
  exact hneg.cmp_map_eq m n

/-- A sign, in between zero and beyond all others infinity, then an exponent and a mantissa. -/
abbrev Rank : Type := ℤ ×ₗ ℤ ×ₗ ℤ

namespace Rank

/-- The rank of a float taken apart. Both zeros have the same. -/
def ofUnpacked? : UnpackedFloat → Option Rank
  | .notANumber => none
  | .infinity .negative => some (toLex (-2, toLex (0, 0)))
  | .finite .negative m e _ => some (toLex (-1, toLex (-e, -m)))
  | .zero _ => some (toLex (0, toLex (0, 0)))
  | .finite .positive m e _ => some (toLex (1, toLex (e, m)))
  | .infinity .positive => some (toLex (2, toLex (0, 0)))

theorem compare_unpacked (u v : UnpackedFloat) :
    u.compare v = (ofUnpacked? u).bind fun a => (ofUnpacked? v).map (compare a) := by
  cases u with
  | notANumber => cases v <;> rfl
  | infinity s => cases s <;> rcases v with (_ | _) | _ | _ | ⟨_ | _, _, _, _⟩ <;> rfl
  | zero s => rcases v with (_ | _) | _ | _ | ⟨_ | _, _, _, _⟩ <;> rfl
  | finite s m e hm =>
    cases v with
    | notANumber => cases s <;> rfl
    | infinity t => cases s <;> cases t <;> rfl
    | zero t => cases s <;> rfl
    | finite t n f hn =>
      cases s <;> cases t
      case negative.positive | positive.negative => rfl
      all_goals simp [UnpackedFloat.compare, ofUnpacked?, compare_toLex, compare_neg,
        compare_natCast, Ordering.swap_then]

def ofFloat? (x : Float) : Option Rank := ofUnpacked? x.toModel.unpack

theorem isSome_ofFloat? (x : Float) : (ofFloat? x).isSome = !x.isNaN := by
  change (ofUnpacked? x.toModel.unpack).isSome = !x.toModel.unpack.isNaN
  rcases x.toModel.unpack with (_ | _) | _ | _ | ⟨_ | _, _, _, _⟩ <;> rfl

/-- The rank on the other side of zero. -/
def neg (a : Rank) : Rank :=
  toLex (-(ofLex a).1, toLex (-(ofLex (ofLex a).2).1, -(ofLex (ofLex a).2).2))

theorem neg_le_neg {a b : Rank} (h : a ≤ b) : b.neg ≤ a.neg := by
  simp only [neg, Prod.Lex.le_iff, ofLex_toLex, neg_lt_neg_iff, neg_inj, neg_le_neg_iff] at h ⊢
  omega

theorem ofUnpacked?_neg (u : UnpackedFloat) : ofUnpacked? u.neg = (ofUnpacked? u).map neg := by
  rcases u with (_ | _) | _ | _ | ⟨_ | _, m, e, _⟩ <;>
    simp [UnpackedFloat.neg, ofUnpacked?, neg]

variable {x y : Float} {a b : Rank}

theorem compare_model (hx : ofFloat? x = some a) (hy : ofFloat? y = some b) :
    x.toModel.unpack.compare y.toModel.unpack = some (compare a b) := by
  rw [compare_unpacked, ← ofFloat?, ← ofFloat?, hx, hy]
  rfl

theorem lt_iff (hx : ofFloat? x = some a) (hy : ofFloat? y = some b) : x < y ↔ a < b := by
  change decide ((x.toModel.unpack.compare y.toModel.unpack == some .lt) = true) = true ↔ a < b
  rw [decide_eq_true_iff, compare_model hx hy, beq_iff_eq, Option.some.injEq, compare_lt_iff_lt]

theorem beq_iff (hx : ofFloat? x = some a) (hy : ofFloat? y = some b) : x == y ↔ a = b := by
  change (x.toModel.unpack.compare y.toModel.unpack == some .eq) = true ↔ a = b
  rw [compare_model hx hy, beq_iff_eq, Option.some.injEq, compare_eq_iff_eq]

end Rank

end Minibasic

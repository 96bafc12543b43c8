import Mathlib
import Minibasic.Proofs.Number.Ranks
import Minibasic.Proofs.Number.Words

/-!
How an integer becomes a float. Its mantissa is brought to 53 bits; the bits that do not fit are
rounded away, and if that carries over, the mantissa is shifted once more. None of this changes the
order of integers.
-/

namespace Minibasic

open Float.Model (UnpackedFloat Format totalExponent)
open Float.Model.UnpackedFloat

theorem log2_mul_two_pow {n : Nat} (hn : n ≠ 0) (k : Nat) : (n * 2 ^ k).log2 = n.log2 + k := by
  induction k with
  | zero => rw [Nat.pow_zero, Nat.mul_one, Nat.add_zero]
  | succ k ih =>
    have hpos : n * 2 ^ k ≠ 0 := Nat.mul_ne_zero hn (Nat.two_pow_pos k).ne'
    rw [Nat.pow_succ', Nat.mul_left_comm, Nat.log2_two_mul hpos, ih, Nat.add_assoc]

section Mantissas

/-- A mantissa in quarters of its unit. What the two bits say of those that were dropped counts as
nothing, less than a half, a half and more than a half. -/
def quarters (em : ExtendedMantissa) : Nat :=
  4 * em.mantissa + 2 * em.roundBit.toNat + em.stickyBit.toNat

theorem quarters_shiftRightOne (em : ExtendedMantissa) :
    quarters em.shiftRightOne = 2 * (quarters em / 4) + min 1 (quarters em % 4) := by
  obtain ⟨m, r, s⟩ := em
  rcases Nat.mod_two_eq_zero_or_one m with hm | hm <;> cases r <;> cases s <;>
    simp [quarters, ExtendedMantissa.shiftRightOne, hm] <;> omega

theorem quarters_shiftRightOne_mono {em em' : ExtendedMantissa} (h : quarters em ≤ quarters em') :
    quarters em.shiftRightOne ≤ quarters em'.shiftRightOne := by
  rw [quarters_shiftRightOne, quarters_shiftRightOne]
  omega

/-- To the nearest unit, and from a half to the even one. -/
theorem roundedMantissa_eq (em : ExtendedMantissa) :
    em.roundedMantissa = (quarters em + 1 + quarters em / 4 % 2) / 4 := by
  obtain ⟨m, r, s⟩ := em
  rcases Nat.mod_two_eq_zero_or_one m with hm | hm <;> cases r <;> cases s <;>
    simp [quarters, ExtendedMantissa.roundedMantissa, ExtendedMantissa.accuracy,
      Accuracy.roundToNearestEven, hm] <;> omega

/-- The mantissa `m` without its lowest `s` bits, which are rounded away. -/
def rounded (m s : Nat) : Nat :=
  (ExtendedMantissa.ofMantissaAndAccuracy m .exact >>> s).roundedMantissa

theorem mantissa_shift (em : ExtendedMantissa) (s : Nat) :
    (em >>> s).mantissa = em.mantissa / 2 ^ s := by
  induction s with
  | zero => exact (Nat.div_one _).symm
  | succ s ih =>
    change (em >>> s).mantissa / 2 = _
    rw [ih, Nat.div_div_eq_div_mul, Nat.pow_succ]

theorem roundedMantissa_mono {em em' : ExtendedMantissa} (h : quarters em ≤ quarters em') :
    em.roundedMantissa ≤ em'.roundedMantissa := by
  rw [roundedMantissa_eq, roundedMantissa_eq]
  generalize quarters em = q at *
  generalize quarters em' = q' at *
  rcases (Nat.div_le_div_right h : q / 4 ≤ q' / 4).lt_or_eq with hlt | heq
  · have hupper : (q + 1 + q / 4 % 2) / 4 ≤ q / 4 + 1 := by omega
    have hlower : q' / 4 ≤ (q' + 1 + q' / 4 % 2) / 4 := by omega
    omega
  · rw [heq]
    omega

theorem rounded_mono {m n : Nat} (h : m ≤ n) (s : Nat) : rounded m s ≤ rounded n s := by
  refine roundedMantissa_mono ?_
  induction s with
  | zero => exact Nat.mul_le_mul_left 4 h
  | succ s ih => exact quarters_shiftRightOne_mono ih

theorem rounded_bounds (m s : Nat) : m / 2 ^ s ≤ rounded m s ∧ rounded m s ≤ m / 2 ^ s + 1 := by
  have hm := mantissa_shift (ExtendedMantissa.ofMantissaAndAccuracy m .exact) s
  change _ = m / 2 ^ s at hm
  rw [rounded, roundedMantissa_eq, ← hm, quarters]
  have hround := Bool.toNat_le
    (ExtendedMantissa.ofMantissaAndAccuracy m .exact >>> s).roundBit
  have hsticky := Bool.toNat_le
    (ExtendedMantissa.ofMantissaAndAccuracy m .exact >>> s).stickyBit
  omega

/-- A mantissa of 53 bits is left, or the least one of 54. -/
theorem rounded_normal {m s : Nat} (h : m.log2 = 52 + s) :
    2 ^ 52 ≤ rounded m s ∧ rounded m s ≤ 2 ^ 53 := by
  have hm : m ≠ 0 := by
    rintro rfl
    rw [Nat.log2_zero] at h
    omega
  have hlow : 2 ^ 52 ≤ m / 2 ^ s := by
    rw [Nat.le_div_iff_mul_le (Nat.two_pow_pos s), ← Nat.pow_add, ← h]
    exact Nat.log2_self_le hm
  have hhigh : m / 2 ^ s < 2 ^ 53 := by
    have hlog : 53 + s = m.log2 + 1 := by omega
    rw [Nat.div_lt_iff_lt_mul (Nat.two_pow_pos s), ← Nat.pow_add, hlog]
    exact Nat.lt_log2_self
  have hbounds := rounded_bounds m s
  omega

/-- The least mantissa of 54 bits gives way to that of 53 at the next exponent. -/
def carried (s : Sign) (m : Nat) (e : Int) : UnpackedFloat :=
  if h : 0 < m ∧ m < 2 ^ 53 then .finite s m e h.1 else .finite s (2 ^ 52) (e + 1) (by decide)

theorem shiftToTargetExponent_eq {m : Nat} {e : Int} (hm : 52 ≤ m.log2)
    (he : -1022 ≤ m.log2 + e) : shiftToTargetExponent .binary64 m e .exact =
      (ExtendedMantissa.ofMantissaAndAccuracy m .exact >>> (m.log2 - 52), m.log2 + e - 52) := by
  have htarget : Format.binary64.targetExponent (totalExponent m e) = m.log2 + e - 52 := by
    simp [Format.targetExponent, totalExponent, Format.mantissaBits, Format.minExponent]
    omega
  have hshift : (m.log2 + e - 52 - e).toNat = m.log2 - 52 := by omega
  have hexponent : e + (m.log2 - 52 : Nat) = m.log2 + e - 52 := by omega
  simp only [shiftToTargetExponent, shiftToExponent, htarget, hshift, hexponent]

/-- After the first rounding a mantissa is shifted again if it has 54 bits. -/
theorem round_carried (s : Sign) {r : Nat} {e : Int} (hlow : 2 ^ 52 ≤ r) (hhigh : r ≤ 2 ^ 53)
    (he : -1074 ≤ e) :
    (if h : (shiftToTargetExponent .binary64 r e .exact).1.mantissa = 0 then .zero s
      else .finite s _ (shiftToTargetExponent .binary64 r e .exact).2 (Nat.pos_of_ne_zero h)) =
      carried s r e := by
  by_cases hr : r < 2 ^ 53
  · have hlog : r.log2 = 52 := (Nat.log2_eq_iff (by omega)).mpr ⟨hlow, hr⟩
    have hexponent : (52 : Nat) + e - 52 = e := by omega
    have hcarried : carried s r e = .finite s r e (by omega) := dif_pos ⟨by omega, hr⟩
    rw [hcarried, shiftToTargetExponent_eq (by omega) (by omega), hlog, hexponent]
    exact dif_neg (by omega : ¬r = 0)
  · obtain rfl : r = 2 ^ 53 := by omega
    have hlog : (2 ^ 53 : Nat).log2 = 53 := Nat.log2_two_pow
    have hexponent : (53 : Nat) + e - 52 = e + 1 := by omega
    rw [shiftToTargetExponent_eq (by rw [hlog]; decide) (by rw [hlog]; omega), hlog, hexponent]
    rfl

theorem roundWithAccuracy_eq (s : Sign) {m : Nat} {e : Int} (hm : 52 ≤ m.log2)
    (he : -1022 ≤ m.log2 + e) : roundWithAccuracy .binary64 s m e .exact =
      carried s (rounded m (m.log2 - 52)) (m.log2 + e - 52) := by
  obtain ⟨hlow, hhigh⟩ := rounded_normal (m := m) (s := m.log2 - 52) (by omega)
  rw [roundWithAccuracy, shiftToTargetExponent_eq hm he]
  exact round_carried s hlow hhigh (by omega)

end Mantissas

section Packing

theorem exponent_bits {n : Nat} (h : n < 2047) (hpos : 0 < n) :
    BitVec.ofNat 11 n ≠ -1#11 ∧ BitVec.ofNat 11 n ≠ 0#11 := by
  have hn : (BitVec.ofNat 11 n).toNat = n := Nat.mod_eq_of_lt (by omega)
  rw [Ne, Ne, exponent_eq_ones_iff, exponent_eq_zero_iff, hn]
  omega

theorem mantissa_bits {m : Nat} (hlow : 2 ^ 52 ≤ m) (hhigh : m < 2 ^ 53) :
    (1#1 ++ BitVec.ofNat 52 m).toNat = m := by
  rw [toNat_one_append, BitVec.toNat_ofNat]
  omega

/-- A mantissa of 53 bits survives its being packed into a word. -/
theorem unpack_pack_finite (s : Sign) {m : Nat} {e : Int} (h : 0 < m) (hlow : 2 ^ 52 ≤ m)
    (hhigh : m < 2 ^ 53) (he : -1074 ≤ e) (he' : e ≤ 971) :
    (Float.Model.pack (.finite s m e h)).unpack = .finite s m e h := by
  have hlog : m.log2 = 52 := (Nat.log2_eq_iff h.ne').mpr ⟨hlow, hhigh⟩
  have hbiased : (e + Format.binary64.exponentBias
      + Format.binary64.mantissaBitsWithoutImplicit).toNat = (e + 1075).toNat := by
    change (e + 1023 + 52).toNat = _
    omega
  have hunbiased : ((BitVec.ofNat 11 (e + 1075).toNat).toNat : Int)
      - (Format.binary64.exponentBias + Format.binary64.mantissaBitsWithoutImplicit) = e := by
    change ((e + 1075).toNat % 2 ^ 11 : Nat) - (1023 + 52 : Int) = e
    omega
  obtain ⟨hfinite, hnormal⟩ := exponent_bits (n := (e + 1075).toNat) (by omega) (by omega)
  have hpack : UnpackedFloat.pack .binary64 (.finite s m e h) =
      packComponents .binary64 s (BitVec.ofNat 11 (e + 1075).toNat) (BitVec.ofNat 52 m) := by
    simp only [UnpackedFloat.pack, hlog, hbiased]
    rw [if_neg (by omega)]
    exact if_pos rfl
  change UnpackedFloat.unpack .binary64 (UnpackedFloat.pack .binary64 _) = _
  rw [hpack]
  simp only [UnpackedFloat.unpack, unpackMantissa_packComponents, unpackExponent_packComponents,
    unpackSign_packComponents, Sign.ofBitVec_toBitVec, mantissa_bits hlow hhigh, hunbiased]
  rw [if_neg hfinite, if_neg hnormal]

theorem unpack_pack_carried (s : Sign) {r : Nat} {e : Int} (hlow : 2 ^ 52 ≤ r) (he : -1074 ≤ e)
    (he' : e ≤ 970) : (Float.Model.pack (carried s r e)).unpack = carried s r e := by
  unfold carried
  split
  · exact unpack_pack_finite s _ hlow (by omega) he (by omega)
  · exact unpack_pack_finite s _ (by decide) (by decide) (by omega) (by omega)

end Packing

section Conversion

variable {m n : Nat}

/-- The number of bits that `n` is lengthened by before it is rounded. The two ways of converting
it do not differ in anything else. -/
def lengthening (n : Nat) : Nat := if n < 2 ^ 53 then 104 - n.log2 else 53

theorem log2_lengthened (hn : 0 < n) :
    (n * 2 ^ lengthening n).log2 = n.log2 + lengthening n ∧ 52 ≤ n.log2 + lengthening n := by
  refine ⟨log2_mul_two_pow hn.ne' _, ?_⟩
  unfold lengthening
  split
  next h =>
    have hlog : n.log2 < 53 := (Nat.log2_lt hn.ne').mpr h
    omega
  next => omega

/-- The mantissa of the float next to `n`, before it is carried over. -/
def mantissa (n : Nat) : Nat :=
  rounded (n * 2 ^ lengthening n) (n.log2 + lengthening n - 52)

theorem mantissa_bounds (hn : 0 < n) : 2 ^ 52 ≤ mantissa n ∧ mantissa n ≤ 2 ^ 53 := by
  obtain ⟨hlog, hle⟩ := log2_lengthened hn
  exact rounded_normal (by omega)

theorem unpack_pack_lengthened (s : Sign) (hn : 0 < n) (h : n < 2 ^ 64) : (Float.Model.pack
      (roundWithAccuracy .binary64 s (n * 2 ^ lengthening n) (-lengthening n) .exact)).unpack =
      carried s (mantissa n) (n.log2 - 52) := by
  obtain ⟨hlog, hle⟩ := log2_lengthened hn
  have hbits : n.log2 < 64 := (Nat.log2_lt hn.ne').mpr h
  have hexponent : ((n.log2 + lengthening n : Nat) : Int) + -lengthening n - 52 = n.log2 - 52 := by
    omega
  rw [roundWithAccuracy_eq s (by omega) (by omega), hlog, hexponent]
  exact unpack_pack_carried s (mantissa_bounds hn).1 (by omega) (by omega)

/-- A natural number of at most 53 bits is converted as it is. -/
theorem unpack_toFloat (hn : 0 < n) (h : n < 2 ^ 53) : ∃ hm,
    n.toUInt64.toFloat.toModel.unpack =
      .finite .positive (n * 2 ^ (52 - n.log2)) (n.log2 - 52) hm := by
  have hlog : n.log2 ≤ 52 := Nat.le_of_lt_succ ((Nat.log2_lt hn.ne').mpr h)
  have hm : (n * 2 ^ (52 - n.log2)).log2 = 52 := by
    rw [log2_mul_two_pow hn.ne']
    omega
  have hpos : 0 < n * 2 ^ (52 - n.log2) := Nat.mul_pos hn (Nat.two_pow_pos _)
  obtain ⟨hlow, hhigh⟩ := (Nat.log2_eq_iff hpos.ne').mp hm
  have hword : n.toUInt64.toNat = n := Nat.mod_eq_of_lt (by omega : n < 2 ^ 64)
  have hcompare : compare (n : Int) 0 = .gt := Int.compare_eq_gt.mpr (by omega)
  have htarget : Format.binary64.targetExponent (totalExponent n 0) = n.log2 - 52 := by
    simp [Format.targetExponent, totalExponent, Format.mantissaBits, Format.minExponent]
    omega
  have hshift : (0 - ((n.log2 : Int) - 52)).toNat = 52 - n.log2 := by omega
  have hround : UnpackedFloat.ofUInt64 .binary64 n.toUInt64 =
      carried .positive (n * 2 ^ (52 - n.log2)) (n.log2 - 52) := by
    simp only [UnpackedFloat.ofUInt64, UnpackedFloat.ofNat, UnpackedFloat.ofInt,
      UnpackedFloat.normalize, hword, hcompare, UnpackedFloat.round, decreaseExponent, htarget,
      hshift, Int.toNat_natCast, Nat.shiftLeft_eq]
    rw [roundWithAccuracy_eq _ (by omega) (by omega), hm]
    congr 1
    omega
  refine ⟨hpos, ?_⟩
  change (Float.Model.pack (UnpackedFloat.ofUInt64 .binary64 n.toUInt64)).unpack = _
  rw [hround, unpack_pack_carried _ hlow (by omega) (by omega)]
  exact dif_pos ⟨hpos, hhigh⟩

theorem unpack_ofNat (hn : 0 < n) (h : n < 2 ^ 64) :
    (Float.ofNat n).toModel.unpack = carried .positive (mantissa n) (n.log2 - 52) := by
  rw [← unpack_pack_lengthened .positive hn h]
  -- A small number is a product of floats, with one; a large one is a product of mantissas.
  by_cases hsmall : n < 2 ^ 53
  · have hbits : n.log2 ≤ 52 := Nat.le_of_lt_succ ((Nat.log2_lt hn.ne').mpr hsmall)
    have hlength : lengthening n = 52 - n.log2 + 52 := by
      rw [lengthening, if_pos hsmall]
      omega
    have hfloat : Float.ofNat n = n.toUInt64.toFloat * Float.exactlyRepresentablePowersOfTen[0] :=
      dif_pos ⟨hsmall, by decide⟩
    have hone : (Float.exactlyRepresentablePowersOfTen[0]).toModel.unpack =
        .finite .positive (2 ^ 52) (-52) (by decide) := rfl
    have hexponent : -((52 - n.log2 + 52 : Nat) : Int) = n.log2 - 52 + -52 := by omega
    obtain ⟨hm, hunpack⟩ := unpack_toFloat hn hsmall
    rw [hfloat, hlength, Nat.pow_add, ← Nat.mul_assoc, hexponent]
    change (Float.Model.pack (UnpackedFloat.mul .binary64 _ _)).unpack = _
    rw [hunpack, hone]
    rfl
  · have hlength : lengthening n = 53 := if_neg hsmall
    have hfloat : Float.ofNat n = .ofModel (Float.Model.ofScientific n 0) :=
      dif_neg fun h => hsmall h.1
    have hpositive : ¬(0 : Int) < -(2 ^ Format.binary64.exponentBits + n.log2) := by
      change ¬(0 : Int) < -(2048 + n.log2)
      omega
    have hproduct : UnpackedFloat.ofScientific .binary64 n 0 =
        roundWithAccuracy .binary64 .positive (n <<< 53 * 1) (-53 + 0) .exact := by
      rw [UnpackedFloat.ofScientific, dif_neg hn.ne', if_neg (by decide), if_neg hpositive,
        if_pos (Int.le_refl 0)]
      simp only [Format.mantissaBits, UnpackedFloat.mul]
      rfl
    rw [hfloat, hlength]
    change (Float.Model.pack (UnpackedFloat.ofScientific .binary64 n 0)).unpack = _
    rw [hproduct, Nat.shiftLeft_eq, Nat.mul_one, Int.add_zero]
    simp only [Nat.cast_ofNat]

/-- A negative integer is converted as its opposite is. -/
theorem unpack_ofInt_neg (hn : 0 < n) (h : n < 2 ^ 64) :
    (Float.ofInt (-n)).toModel.unpack = (Float.ofNat n).toModel.unpack.neg := by
  have hbits : n.log2 < 64 := (Nat.log2_lt hn.ne').mpr h
  have hneg : (carried .positive (mantissa n) (n.log2 - 52)).neg =
      carried .negative (mantissa n) (n.log2 - 52) := by
    unfold carried
    split <;> rfl
  obtain ⟨k, rfl⟩ := Nat.exists_eq_succ_of_ne_zero hn.ne'
  change (Float.Model.pack (Float.ofNat (k + 1)).toModel.unpack.neg).unpack = _
  rw [unpack_ofNat hn h, hneg]
  exact unpack_pack_carried .negative (mantissa_bounds hn).1 (by omega) (by omega)

end Conversion

section Order

variable {m n : Nat} {e f : Int}

/-- The exponent and the mantissa after carrying over. -/
def carriedRank (m : Nat) (e : Int) : ℤ ×ₗ ℤ :=
  if 0 < m ∧ m < 2 ^ 53 then toLex (e, m) else toLex (e + 1, 2 ^ 52)

theorem ofUnpacked?_carried (m : Nat) (e : Int) :
    Rank.ofUnpacked? (carried .positive m e) = some (toLex (1, carriedRank m e)) := by
  unfold carried carriedRank
  split <;> rfl

theorem carriedRank_mono (h : m ≤ n) (hm : 0 < m) (hn : n ≤ 2 ^ 53) (e : Int) :
    carriedRank m e ≤ carriedRank n e := by
  unfold carriedRank
  split <;> split <;> simp [Prod.Lex.toLex_le_toLex] <;> omega

theorem carriedRank_le_of_lt (h : e < f) (hn : 2 ^ 52 ≤ n) : carriedRank m e ≤ carriedRank n f := by
  unfold carriedRank
  split <;> split <;> simp [Prod.Lex.toLex_le_toLex] <;> omega

namespace Rank

/-- The rank of the float next to `n`. -/
def ofNat (n : Nat) : Rank :=
  if n = 0 then toLex (0, toLex (0, 0)) else toLex (1, carriedRank (mantissa n) (n.log2 - 52))

/-- The rank of the float next to an integer. -/
def ofInt (k : Int) : Rank := if k < 0 then (ofNat k.natAbs).neg else ofNat k.natAbs

theorem ofFloat?_ofNat (h : n < 2 ^ 64) : ofFloat? (Float.ofNat n) = some (ofNat n) := by
  rw [ofNat]
  split
  next hzero =>
    rw [hzero]
    rfl
  next hpos =>
    rw [ofFloat?, unpack_ofNat (Nat.pos_of_ne_zero hpos) h, ofUnpacked?_carried]

theorem ofFloat?_ofInt {k : Int} (h : k.natAbs < 2 ^ 64) :
    ofFloat? (Float.ofInt k) = some (ofInt k) := by
  rw [ofInt]
  split
  next hneg =>
    have hpos : 0 < k.natAbs := by omega
    have hk : Float.ofInt k = Float.ofInt (-(k.natAbs : Int)) := congrArg Float.ofInt (by omega)
    rw [hk, ofFloat?, unpack_ofInt_neg hpos h, ofUnpacked?_neg, ← ofFloat?, ofFloat?_ofNat h]
    rfl
  next hpos =>
    obtain ⟨n, rfl⟩ := Int.eq_ofNat_of_zero_le (Int.not_lt.mp hpos)
    exact ofFloat?_ofNat h

/-- The binade decides, and within a binade the mantissa. -/
theorem ofNat_mono (h : m ≤ n) : ofNat m ≤ ofNat n := by
  unfold ofNat
  by_cases hn : n = 0
  · obtain rfl : m = 0 := by omega
    rw [if_pos hn, if_pos rfl]
  by_cases hm : m = 0
  · rw [if_pos hm, if_neg hn]
    exact Prod.Lex.toLex_le_toLex.mpr (.inl Int.zero_lt_one)
  rw [if_neg hm, if_neg hn]
  have hmantissa := mantissa_bounds (Nat.pos_of_ne_zero hn)
  refine Prod.Lex.toLex_le_toLex.mpr (.inr ⟨rfl, ?_⟩)
  have hlog : m.log2 ≤ n.log2 := (Nat.le_log2 hn).mpr ((Nat.log2_self_le hm).trans h)
  rcases hlog.lt_or_eq with hlt | heq
  · exact carriedRank_le_of_lt (by omega) hmantissa.1
  · have hlength : lengthening m = lengthening n := by
      have hsmall : m < 2 ^ 53 ↔ n < 2 ^ 53 := by
        rw [← Nat.log2_lt hm, ← Nat.log2_lt hn, heq]
      rw [lengthening, lengthening, heq, if_congr hsmall rfl rfl]
    have hle : mantissa m ≤ mantissa n := by
      rw [mantissa, mantissa, heq, hlength]
      exact rounded_mono (Nat.mul_le_mul_right _ h) _
    have hpos := (mantissa_bounds (Nat.pos_of_ne_zero hm)).1
    rw [heq]
    exact carriedRank_mono hle (by omega) hmantissa.2 _

theorem ofInt_mono {j k : Int} (h : j ≤ k) : ofInt j ≤ ofInt k := by
  have hzero (n : Nat) : ofNat 0 ≤ ofNat n := ofNat_mono (Nat.zero_le n)
  unfold ofInt
  by_cases hk : k < 0
  · rw [if_pos (by omega), if_pos hk]
    exact neg_le_neg (ofNat_mono (by omega))
  rw [if_neg hk]
  by_cases hj : j < 0
  · rw [if_pos hj]
    exact (neg_le_neg (hzero _)).trans (hzero _)
  · rw [if_neg hj]
    exact ofNat_mono (by omega)

end Rank

end Order

end Minibasic

import Mathlib.Computability.Language
import Minibasic.Proofs.Grammar

/-!
The languages of the grammar, and what may stand behind an expression in them. Where an expression
and what stands behind it can both take the next lexeme, it does not matter which of them does: all
repeated and optional parts that start with the same lexeme go on in the same way.
-/

namespace Minibasic.Grammar

open Minibasic.Parser (Tier)

variable {α : Type} {K T M N : Language Lexeme} {l : Lexeme} {v w : List Lexeme}

/-- What some phrase of a kind derives. -/
def sentences (p : α → Phrase) : Language Lexeme := {w | ∃ a, Derives (p a) w}

theorem mem_sentences (p : α → Phrase) {a : α} (h : Derives (p a) w) : w ∈ sentences p := ⟨a, h⟩

/-- The lexeme alone. -/
def only (l : Lexeme) : Language Lexeme := {[l]}

def guardeds : Language Lexeme := sentences fun c : Tree × Tree => .guarded c.1 c.2

/-- At most one operator of comparison, and its right operand. -/
def comparisonSuffixes : Language Lexeme :=
  {w | w = [] ∨ ∃ op ∈ comparisons, ∃ v ∈ sentences .arithmetic, w = op.lexeme :: v}

/-- At most one list of arguments. -/
def callSuffixes : Language Lexeme :=
  {w | w = [] ∨ ∃ v ∈ sentences .arguments * only .closeParen, w = .openParen :: v}

/-- What has to stand behind a lexeme by which an expression can be continued. -/
def continuation? : Lexeme → Option (Language Lexeme)
  | .keyword .and | .keyword .or => some (sentences (operand .logical))
  | .plus | .minus => some (sentences (operand .additive))
  | .star | .slash => some (sentences (operand .multiplicative))
  | .equalEqual | .bangEqual | .less | .lessEqual | .greater | .greaterEqual =>
    some (sentences .arithmetic)
  | .caret => some (sentences .factor)
  | .openParen => some (sentences .arguments * only .closeParen)
  | .keyword .elif => some guardeds
  | .keyword .else_ => some (sentences .expression)
  | _ => none

theorem cons_mem_only_mul : l :: w ∈ only l * K ↔ w ∈ K := by
  constructor
  · intro hr
    obtain ⟨_, rfl, b, hb, h⟩ := hr
    rwa [← (List.cons.inj h).2]
  · intro h
    exact ⟨[l], rfl, w, h, rfl⟩

theorem exists_of_mem_only_mul {x : List Lexeme} (h : x ∈ only l * K) :
    ∃ w ∈ K, x = l :: w := by
  obtain ⟨_, rfl, w, hw, rfl⟩ := h
  exact ⟨w, hw, rfl⟩

theorem front_of_cons_mem_only_mul {l' : Lexeme} (h : l :: w ∈ only l' * K) : l = l' := by
  obtain ⟨_, -, h⟩ := exists_of_mem_only_mul h
  exact (List.cons.inj h).1

theorem append_append_mem {u v z : List Lexeme} (hu : u ∈ T) (hv : v ∈ M) (hz : z ∈ K) :
    u ++ v ++ z ∈ T * (M * K) := by
  rw [List.append_assoc]
  exact Language.append_mem_mul hu (Language.append_mem_mul hv hz)

section Productions

theorem mem_expression_mul (h : w ∈ sentences .expression * K) :
    (∃ x, w ∈ only (.keyword .var) * (only (.identifier x) * (only .equal *
      (sentences .expression * K)))) ∨
      w ∈ sentences .comparison * (sentences (.operations .logical) * K) := by
  obtain ⟨u, ⟨e, de⟩, z, hz, rfl⟩ := h
  cases de with
  | @assign x _ _ de =>
    refine .inl ⟨x, cons_mem_only_mul.2 (cons_mem_only_mul.2 (cons_mem_only_mul.2 ?_))⟩
    exact Language.append_mem_mul ⟨_, de⟩ hz
  | logical du dv => exact .inr (append_append_mem ⟨_, du⟩ ⟨_, dv⟩ hz)

theorem mem_comparison_mul (h : w ∈ sentences .comparison * K) :
    w ∈ only (.keyword .not) * (sentences .comparison * K) ∨
      w ∈ sentences .arithmetic * (comparisonSuffixes * K) := by
  obtain ⟨u, ⟨e, de⟩, z, hz, rfl⟩ := h
  cases de with
  | not de => exact .inl (cons_mem_only_mul.2 (Language.append_mem_mul ⟨_, de⟩ hz))
  | arithmetic de => exact .inr ⟨_, ⟨_, de⟩, z, ⟨[], .inl rfl, z, hz, rfl⟩, rfl⟩
  | relation du hop dv =>
    exact .inr (append_append_mem ⟨_, du⟩ (.inr ⟨_, hop, _, ⟨_, dv⟩, rfl⟩) hz)

theorem mem_arithmetic_mul (h : w ∈ sentences .arithmetic * K) :
    w ∈ sentences .term * (sentences (.operations .additive) * K) := by
  obtain ⟨u, ⟨e, de⟩, z, hz, rfl⟩ := h
  cases de with
  | sum du dv => exact append_append_mem ⟨_, du⟩ ⟨_, dv⟩ hz

theorem mem_term_mul (h : w ∈ sentences .term * K) :
    w ∈ sentences .factor * (sentences (.operations .multiplicative) * K) := by
  obtain ⟨u, ⟨e, de⟩, z, hz, rfl⟩ := h
  cases de with
  | product du dv => exact append_append_mem ⟨_, du⟩ ⟨_, dv⟩ hz

theorem mem_factor_mul (h : w ∈ sentences .factor * K) :
    (∃ op ∈ signs, w ∈ only op.lexeme * (sentences .factor * K)) ∨
      w ∈ sentences .power * K := by
  obtain ⟨u, ⟨e, de⟩, z, hz, rfl⟩ := h
  cases de with
  | sign hop de =>
    exact .inl ⟨_, hop, cons_mem_only_mul.2 (Language.append_mem_mul ⟨_, de⟩ hz)⟩
  | power de => exact .inr (Language.append_mem_mul ⟨_, de⟩ hz)

theorem mem_power_mul (h : w ∈ sentences .power * K) :
    w ∈ sentences .call * (sentences .exponents * K) := by
  obtain ⟨u, ⟨e, de⟩, z, hz, rfl⟩ := h
  cases de with
  | raise du dv => exact append_append_mem ⟨_, du⟩ ⟨_, dv⟩ hz

theorem mem_call_mul (h : w ∈ sentences .call * K) :
    w ∈ sentences .atom * (callSuffixes * K) := by
  obtain ⟨u, ⟨e, de⟩, z, hz, rfl⟩ := h
  cases de with
  | callee de => exact ⟨_, ⟨_, de⟩, z, ⟨[], .inl rfl, z, hz, rfl⟩, rfl⟩
  | call du dv =>
    exact append_append_mem ⟨_, du⟩ (.inr ⟨_, Language.append_mem_mul ⟨_, dv⟩ rfl, rfl⟩) hz

theorem mem_arguments_mul (h : w ∈ sentences .arguments * K) :
    w ∈ K ∨ w ∈ sentences .expression * (sentences .moreArguments * K) := by
  obtain ⟨u, ⟨es, de⟩, z, hz, rfl⟩ := h
  cases de with
  | noArgument => exact .inl hz
  | argument du dv => exact .inr (append_append_mem ⟨_, du⟩ ⟨_, dv⟩ hz)

theorem mem_moreArguments_mul (h : w ∈ sentences .moreArguments * K) :
    w ∈ K ∨ w ∈ only .comma * (sentences .expression * (sentences .moreArguments * K)) := by
  obtain ⟨u, ⟨es, de⟩, z, hz, rfl⟩ := h
  cases de with
  | noMore => exact .inl hz
  | more du dv => exact .inr (cons_mem_only_mul.2 (append_append_mem ⟨_, du⟩ ⟨_, dv⟩ hz))

theorem mem_guardeds_mul (h : w ∈ guardeds * K) :
    w ∈ sentences .expression * (only (.keyword .then_) * (sentences .expression * K)) := by
  obtain ⟨u, ⟨c, de⟩, z, hz, rfl⟩ := h
  cases de with
  | guarded du dv =>
    exact ⟨_, ⟨_, du⟩, _, cons_mem_only_mul.2 (Language.append_mem_mul ⟨_, dv⟩ hz), by simp⟩

theorem mem_step_mul (h : w ∈ sentences .step * K) :
    w ∈ K ∨ w ∈ only (.keyword .step) * (sentences .expression * K) := by
  obtain ⟨u, ⟨s, de⟩, z, hz, rfl⟩ := h
  cases de with
  | noStep => exact .inl hz
  | step de => exact .inr (cons_mem_only_mul.2 (Language.append_mem_mul ⟨_, de⟩ hz))

end Productions

/-- A lexeme at the front that continues an expression may as well be given up to an expression
before it: what has to stand behind it does, and the rest is again in the language. -/
def Yielding (K : Language Lexeme) : Prop :=
  ∀ l w N, continuation? l = some N → l :: w ∈ K → w ∈ N * K

theorem subset_mul_of_nil_mem (hT : [] ∈ T) (h : w ∈ K) : w ∈ T * K :=
  ⟨[], hT, w, h, rfl⟩

/-- A word of a product begins with a word of its first factor. -/
theorem cons_mem_mul (h : l :: w ∈ T * K) :
    ([] ∈ T ∧ l :: w ∈ K) ∨ ∃ v z, l :: v ∈ T ∧ z ∈ K ∧ w = v ++ z := by
  obtain ⟨a, ha, z, hz, h⟩ := h
  cases a with
  | nil =>
    change z = l :: w at h
    exact .inl ⟨ha, h ▸ hz⟩
  | cons b v =>
    obtain ⟨rfl, rfl⟩ := List.cons.inj h
    exact .inr ⟨v, z, ha, hz, rfl⟩

theorem yielding_mul (hT : Yielding T) (hn : [] ∈ T) (hK : Yielding K) : Yielding (T * K) := by
  intro l w N hl h
  -- The lexeme is the first of `K`, or of a word of `T` whose rest stays in front of `K`.
  rcases cons_mem_mul h with ⟨-, h⟩ | ⟨v, z, hv, hz, rfl⟩
  · obtain ⟨a, ha, b, hb, hab⟩ := hK l w N hl h
    exact ⟨a, ha, b, subset_mul_of_nil_mem hn hb, hab⟩
  · rw [← mul_assoc]
    exact ⟨v, hT l v N hl hv, z, hz, rfl⟩

theorem yielding_of_front (h : ∀ l w, l :: w ∈ K → continuation? l = none) : Yielding K := by
  intro l w N hl hw
  rw [h l w hw] at hl
  cases hl

theorem yielding_only_mul (hl : continuation? l = none) : Yielding (only l * K) :=
  yielding_of_front fun _ _ h => front_of_cons_mem_only_mul h ▸ hl

/-- What stands behind an argument does not continue it. -/
theorem yielding_moreArguments :
    Yielding (sentences .moreArguments * (only .closeParen * K)) := by
  refine yielding_of_front fun l w hw => ?_
  rcases mem_moreArguments_mul hw with hw | hw
  · exact front_of_cons_mem_only_mul hw ▸ rfl
  · exact front_of_cons_mem_only_mul hw ▸ rfl

/-- What stands behind the last bound of a loop does not continue it. -/
theorem yielding_step : Yielding (sentences .step * (only (.keyword .then_) * K)) := by
  refine yielding_of_front fun l w hw => ?_
  rcases mem_step_mul hw with hw | hw
  · exact front_of_cons_mem_only_mul hw ▸ rfl
  · exact front_of_cons_mem_only_mul hw ▸ rfl

/-- A continuing lexeme at the front is followed by what has to stand behind it, whether it belongs
to `T`, of which `M` is left then, or to `K`. -/
theorem Yielding.take (hK : Yielding K) (hl : continuation? l = some N)
    (hT : ∀ v, l :: v ∈ T → v ∈ N * M) (hM : [] ∈ M) (h : l :: w ∈ T * K) :
    w ∈ N * (M * K) := by
  rcases cons_mem_mul h with ⟨-, h⟩ | ⟨v, z, hv, hz, rfl⟩
  · obtain ⟨a, ha, b, hb, hab⟩ := hK l w N hl h
    exact ⟨a, ha, b, subset_mul_of_nil_mem hM hb, hab⟩
  · rw [← mul_assoc]
    exact ⟨v, hT v hv, z, hz, rfl⟩

/-- A lexeme that no word of `T` starts with belongs to `K`. -/
theorem mem_of_front_not_mem {x : List Lexeme} (h : x ∈ T * K)
    (hT : ∀ v, x.headD .eof :: v ∉ T) : x ∈ K := by
  obtain ⟨a, ha, b, hb, rfl⟩ := h
  cases a with
  | nil => exact hb
  | cons l v => exact absurd ha (hT v)

section Tails

theorem continuation?_operator {t : Tier} {op : BinaryOp} (h : op ∈ operators t) :
    continuation? op.lexeme = some (sentences (operand t)) := by
  cases t <;> simp only [operators, List.mem_cons, List.not_mem_nil, or_false] at h <;>
    rcases h with rfl | rfl <;> rfl

theorem continuation?_comparison {op : BinaryOp} (h : op ∈ comparisons) :
    continuation? op.lexeme = some (sentences .arithmetic) := by
  simp only [comparisons, List.mem_cons, List.not_mem_nil, or_false] at h
  rcases h with rfl | rfl | rfl | rfl | rfl | rfl <;> rfl

/-- A tail is yielding if what its words start with continues an expression. -/
theorem yielding_of_exists
    (h : ∀ l w, l :: w ∈ T → ∃ N, continuation? l = some N ∧ w ∈ N * T) : Yielding T := by
  intro l w N hl hw
  obtain ⟨N', hl', hw'⟩ := h l w hw
  rw [hl'] at hl
  exact Option.some.inj hl ▸ hw'

theorem nil_mem_operations (t : Tier) : [] ∈ sentences (.operations t) := ⟨[], .noOperation⟩

theorem cons_mem_operations {t : Tier} (h : l :: w ∈ sentences (.operations t)) :
    ∃ op ∈ operators t, l = op.lexeme ∧
      w ∈ sentences (operand t) * sentences (.operations t) := by
  obtain ⟨ops, h⟩ := h
  cases h with
  | operation hop hu hv => exact ⟨_, hop, rfl, _, ⟨_, hu⟩, _, ⟨_, hv⟩, rfl⟩

theorem yielding_operations (t : Tier) : Yielding (sentences (.operations t)) := by
  refine yielding_of_exists fun l w h => ?_
  obtain ⟨op, hop, rfl, hw⟩ := cons_mem_operations h
  exact ⟨_, continuation?_operator hop, hw⟩

theorem nil_mem_comparisonSuffixes : [] ∈ comparisonSuffixes := .inl rfl

theorem cons_mem_comparisonSuffixes (h : l :: w ∈ comparisonSuffixes) :
    ∃ op ∈ comparisons, l = op.lexeme ∧ w ∈ sentences .arithmetic := by
  rcases h with h | ⟨op, hop, v, hv, h⟩
  · cases h
  · obtain ⟨rfl, rfl⟩ := List.cons.inj h
    exact ⟨op, hop, rfl, hv⟩

theorem mul_nil_mem (hT : [] ∈ T) (h : w ∈ N) : w ∈ N * T := ⟨w, h, [], hT, w.append_nil⟩

theorem yielding_comparisonSuffixes : Yielding comparisonSuffixes := by
  refine yielding_of_exists fun l w h => ?_
  obtain ⟨op, hop, rfl, hw⟩ := cons_mem_comparisonSuffixes h
  exact ⟨_, continuation?_comparison hop, mul_nil_mem nil_mem_comparisonSuffixes hw⟩

theorem nil_mem_exponents : [] ∈ sentences .exponents := ⟨[], .noExponent⟩

theorem cons_mem_exponents (h : l :: w ∈ sentences .exponents) :
    l = .caret ∧ w ∈ sentences .factor * sentences .exponents := by
  obtain ⟨es, h⟩ := h
  cases h with
  | exponent hu hv => exact ⟨rfl, _, ⟨_, hu⟩, _, ⟨_, hv⟩, rfl⟩

theorem yielding_exponents : Yielding (sentences .exponents) := by
  refine yielding_of_exists fun l w h => ?_
  obtain ⟨rfl, hw⟩ := cons_mem_exponents h
  exact ⟨_, rfl, hw⟩

theorem nil_mem_callSuffixes : [] ∈ callSuffixes := .inl rfl

theorem cons_mem_callSuffixes (h : l :: w ∈ callSuffixes) :
    l = .openParen ∧ w ∈ sentences .arguments * only .closeParen := by
  rcases h with h | ⟨v, hv, h⟩
  · cases h
  · obtain ⟨rfl, rfl⟩ := List.cons.inj h
    exact ⟨rfl, hv⟩

theorem yielding_callSuffixes : Yielding callSuffixes := by
  refine yielding_of_exists fun l w h => ?_
  obtain ⟨rfl, hw⟩ := cons_mem_callSuffixes h
  exact ⟨_, rfl, mul_nil_mem nil_mem_callSuffixes hw⟩

theorem nil_mem_arms : [] ∈ sentences .arms := ⟨.done, .noArm⟩

theorem cons_mem_arms (h : l :: w ∈ sentences .arms) :
    (l = .keyword .elif ∧ w ∈ guardeds * sentences .arms) ∨
      (l = .keyword .else_ ∧ w ∈ sentences .expression) := by
  obtain ⟨as, h⟩ := h
  cases h with
  | otherwise hb => exact .inr ⟨rfl, _, hb⟩
  | elif hu hv => exact .inl ⟨rfl, _, ⟨(_, _), hu⟩, _, ⟨_, hv⟩, rfl⟩

theorem yielding_arms : Yielding (sentences .arms) := by
  refine yielding_of_exists fun l w h => ?_
  -- More arms may follow an ELIF, but nothing of `T` follows an ELSE.
  rcases cons_mem_arms h with ⟨rfl, hw⟩ | ⟨rfl, hw⟩
  · exact ⟨_, rfl, hw⟩
  · exact ⟨_, rfl, mul_nil_mem nil_mem_arms hw⟩

end Tails

end Minibasic.Grammar

import Minibasic.Expr.Parser

/-!
Where an operand is due. What stands before a spot in an expression tells whether an operand starts
there and which message asks for it; of the text farther to the left only the parentheses that are
still open matter.
-/

namespace Minibasic

namespace Expectation

/-- The messages that ask for the start of an operand. -/
def isOperand : Expectation → Bool
  | expression | operand | atom | argument => true
  | _ => false

end Expectation

/-- A factor can start with the lexeme. -/
def Lexeme.opensFactor : Lexeme → Bool
  | int _ | float _ | string _ | identifier _ | plus | minus | openParen
  | keyword .if_ | keyword .for_ | keyword .while_ | keyword .fun_ => true
  | _ => false

/-- The lexemes that can stand where the message asks for an operand. -/
def Expectation.opens : Expectation → Lexeme → Bool
  | atom, l => l.opensFactor
  | operand, l => l.opensFactor || l = .keyword .not
  | expression, l => l.opensFactor || l = .keyword .not || l = .keyword .var
  | argument, l => l.opensFactor || l = .keyword .not || l = .keyword .var || l = .closeParen
  | _, _ => false

namespace Expectation

variable {l : Lexeme}

theorem opens_atom (l : Lexeme) : atom.opens l = l.opensFactor := rfl

theorem operand_opens_of_atom (h : atom.opens l) : operand.opens l := by
  simp only [opens, Bool.or_eq_true] at h ⊢
  exact .inl h

theorem expression_opens_of_operand (h : operand.opens l) : expression.opens l := by
  simp only [opens, Bool.or_eq_true] at h ⊢
  exact .inl h

theorem opens_eq_false {e : Expectation} (h : e.isOperand = false) (l : Lexeme) :
    e.opens l = false := by
  cases e <;> first | rfl | cases h

theorem opens_int {e : Expectation} (h : e.isOperand) (n : Int64) : e.opens (.int n) := by
  cases e <;> first | rfl | cases h

theorem argument_opens_of_expression (h : expression.opens l) : argument.opens l := by
  simp only [opens, Bool.or_eq_true] at h ⊢
  exact .inl h

end Expectation

/-- The operand that is due behind the lexeme, wherever this stands. For parentheses and commas it
depends on the place. -/
def Lexeme.asks? : Lexeme → Option Expectation
  | equal | arrow | keyword .if_ | keyword .then_ | keyword .elif | keyword .else_ | keyword .to_
  | keyword .step | keyword .while_ => some .expression
  | keyword .and | keyword .or | keyword .not => some .operand
  | plus | minus | star | slash | caret | equalEqual | bangEqual | less | lessEqual | greater
  | greaterEqual => some .atom
  | _ => none

/-- What stands between two parentheses. -/
inductive Bracket where
  | group
  | arguments
  | parameters
deriving DecidableEq

/-- What comes next: an operand, the name or the parameters of a function behind FUN, its parameters
behind the name, or something else. -/
inductive Due where
  | operand (e : Expectation)
  | heading
  | parameters
  | rest
deriving DecidableEq

/-- A spot in an expression: the parentheses that are open there, the innermost first, and what
comes next. -/
structure Spot where
  brackets : List Bracket
  due : Due
deriving DecidableEq

namespace Spot

/-- The message that asks for the operand that is due. -/
def demand? (σ : Spot) : Option Expectation :=
  match σ.due with
  | .operand e => some e
  | _ => none

/-- The lexeme can stand at the spot. -/
def allows (σ : Spot) (l : Lexeme) : Bool :=
  match σ.due, l with
  | .operand e, l => e.opens l
  | .heading, .identifier _ | .heading, .openParen | .parameters, .openParen => true
  | .rest, .keyword .if_ | .rest, .keyword .while_ | .rest, .keyword .not => false
  | .rest, .openParen | .rest, .closeParen | .rest, .comma | .rest, .identifier _ => true
  | .rest, l => l.asks?.isSome
  | _, _ => false

/-- What a parenthesis encloses that opens at the spot. -/
def bracket (σ : Spot) : Bracket :=
  match σ.due with
  | .operand _ => .group
  | .rest => .arguments
  | .heading | .parameters => .parameters

/-- The operand that is due behind a lexeme that stands at the spot. -/
def asks? (σ : Spot) : Lexeme → Option Expectation
  | .openParen =>
    match σ.bracket with
    | .group => some .expression
    | .arguments => some .argument
    | .parameters => none
  | .comma => if σ.brackets.head? = some .arguments then some .expression else none
  | l => l.asks?

/-- The parentheses that are open behind a lexeme that stands at the spot. -/
def bracketsBehind (σ : Spot) : Lexeme → List Bracket
  | .openParen => σ.bracket :: σ.brackets
  | .closeParen => σ.brackets.tail
  | _ => σ.brackets

/-- What comes behind a lexeme that stands at the spot. -/
def dueBehind (σ : Spot) (l : Lexeme) : Due :=
  match σ.asks? l with
  | some e => .operand e
  | none =>
    match σ.due, l with
    | _, .keyword .fun_ => .heading
    | .heading, .identifier _ => .parameters
    | _, _ => .rest

def behind (σ : Spot) (l : Lexeme) : Spot := ⟨σ.bracketsBehind l, σ.dueBehind l⟩

/-- The spot behind one more lexeme, if this can stand there. -/
def next? (σ : Spot) (l : Lexeme) : Option Spot := if σ.allows l then some (σ.behind l) else none

theorem next?_of_allows {σ : Spot} {l : Lexeme} (h : σ.allows l) : σ.next? l = some (σ.behind l) :=
  if_pos h

theorem next?_eq_some_iff {σ τ : Spot} {l : Lexeme} :
    σ.next? l = some τ ↔ σ.allows l ∧ σ.behind l = τ := by
  rw [next?, Option.ite_none_right_eq_some, Option.some.injEq]

theorem demand?_behind (σ : Spot) (l : Lexeme) : (σ.behind l).demand? = σ.asks? l := by
  unfold demand? behind dueBehind
  cases σ.asks? l with
  | some e => rfl
  | none =>
    dsimp only
    split
    next h => split at h <;> cases h
    next => rfl

theorem opens_of_next? {σ τ : Spot} {e : Expectation} {l : Lexeme} (hσ : σ.demand? = some e)
    (h : σ.next? l = some τ) : e.opens l := by
  obtain ⟨bs, due⟩ := σ
  cases due <;> cases hσ
  exact (next?_eq_some_iff.mp h).1

theorem demand?_of_next?_int {σ τ : Spot} {n : Int64} (h : σ.next? (.int n) = some τ) :
    ∃ e, σ.demand? = some e := by
  obtain ⟨bs, due⟩ := σ
  cases due with
  | operand e => exact ⟨e, rfl⟩
  | heading => cases h
  | parameters => cases h
  | rest => cases h

/-- The spot behind the lexemes. -/
def after? (σ : Spot) : List Lexeme → Option Spot
  | [] => some σ
  | l :: w => (σ.next? l).bind (·.after? w)

@[simp] theorem after?_nil (σ : Spot) : σ.after? [] = some σ := rfl

@[simp] theorem after?_cons (σ : Spot) (l : Lexeme) (w : List Lexeme) :
    σ.after? (l :: w) = (σ.next? l).bind (·.after? w) := rfl

theorem after?_append (σ : Spot) (u v : List Lexeme) :
    σ.after? (u ++ v) = (σ.after? u).bind (·.after? v) := by
  induction u generalizing σ with
  | nil => rfl
  | cons l u ih =>
    cases h : σ.next? l with
    | none => simp [h]
    | some τ => simp [h, ih]

/-- The spot before an expression. -/
def start : Spot := ⟨[], .operand .expression⟩

end Spot

/-- The message for the operand that is due behind the lexemes. -/
def demand? (w : List Lexeme) : Option Expectation := (Spot.start.after? w).bind Spot.demand?

/-- Which operand is due is told by the last lexeme, and by where this stands if it is a parenthesis
or a comma. -/
theorem demand?_concat {w : List Lexeme} {l : Lexeme} {τ : Spot}
    (h : Spot.start.after? (w ++ [l]) = some τ) :
    ∃ σ, Spot.start.after? w = some σ ∧ demand? (w ++ [l]) = σ.asks? l := by
  have hall := h
  rw [Spot.after?_append] at h
  obtain ⟨σ, hσ, hl⟩ := Option.bind_eq_some_iff.mp h
  obtain ⟨υ, hυ, hυτ⟩ := Option.bind_eq_some_iff.mp hl
  obtain rfl : υ = τ := Option.some.inj hυτ
  refine ⟨σ, hσ, ?_⟩
  rw [demand?, hall, Option.bind_some, ← (Spot.next?_eq_some_iff.mp hυ).2, Spot.demand?_behind]

/-- The same parenthesis opens a group, arguments or parameters. -/
example : demand? [.openParen] = some .expression ∧
    demand? [.identifier "f", .openParen] = some .argument ∧
    demand? [.keyword .fun_, .openParen] = none := by decide

end Minibasic

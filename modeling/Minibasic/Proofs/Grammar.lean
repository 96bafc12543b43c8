import Minibasic.Expr.Parser

/-!
The grammar of expressions. A phrase stands for a tree or for a part of one, and derives the lists
of lexemes that it can be written as. The grammar is ambiguous: it does not say which of two open
choices an ELSE belongs to, nor how far the body of a loop or of a function reaches.
-/

namespace Minibasic

/-- The lexeme that the operator is written as. -/
def BinaryOp.lexeme : BinaryOp → Lexeme
  | add => .plus
  | sub => .minus
  | mul => .star
  | div => .slash
  | pow => .caret
  | eq => .equalEqual
  | ne => .bangEqual
  | lt => .less
  | le => .lessEqual
  | gt => .greater
  | ge => .greaterEqual
  | and => .keyword .and
  | or => .keyword .or

/-- The lexeme that the operator is written as. -/
def UnaryOp.lexeme : UnaryOp → Lexeme
  | plus => .plus
  | minus => .minus
  | not => .keyword .not

namespace Grammar

open Minibasic.Parser (Tier)

/-- An expression without marks. -/
abbrev Tree := Expr Unit

/-- The operators of a tier. -/
def operators : Tier → List BinaryOp
  | .logical => [.and, .or]
  | .additive => [.add, .sub]
  | .multiplicative => [.mul, .div]

def comparisons : List BinaryOp := [.eq, .ne, .lt, .le, .gt, .ge]

def signs : List UnaryOp := [.plus, .minus]

/-- Operators with their right operands, applied from left to right. -/
def folded (l : Tree) (ops : List (BinaryOp × Tree)) : Tree :=
  ops.foldl (fun l o => .binary () o.1 l o.2) l

/-- Exponents, applied from left to right. -/
def raised (base : Tree) (es : List Tree) : Tree :=
  es.foldl (fun b e => .binary () .pow b e) base

/-- Parameters with commas between them. -/
def parameterLexemes (ps : List String) : List Lexeme :=
  (ps.map Lexeme.identifier).intersperse .comma

/-- The phrases of the grammar, from the loosest to the tightest, and the repeated and optional
parts of them. -/
inductive Phrase where
  | expression (e : Tree)
  | comparison (e : Tree)
  | arithmetic (e : Tree)
  | term (e : Tree)
  | factor (e : Tree)
  | power (e : Tree)
  | call (e : Tree)
  | atom (e : Tree)
  /-- Operators of a tier, each with an operand behind it. -/
  | operations (t : Tier) (ops : List (BinaryOp × Tree))
  /-- Carets, each with a factor behind it. -/
  | exponents (es : List Tree)
  /-- Expressions between commas, or nothing. -/
  | arguments (es : List Tree)
  /-- Commas, each with an expression behind it. -/
  | moreArguments (es : List Tree)
  /-- A condition, THEN, and an expression. -/
  | guarded (test body : Tree)
  /-- ELIFs with a guarded expression behind each, and at most one ELSE after them. -/
  | arms (as : Arms Unit)
  /-- STEP and an expression, or nothing. -/
  | step (e : Option Tree)

/-- What stands between the operators of a tier. -/
def operand : Tier → Tree → Phrase
  | .logical => .comparison
  | .additive => .term
  | .multiplicative => .factor

inductive Derives : Phrase → List Lexeme → Prop where
  | assign {x e w} : Derives (.expression e) w →
      Derives (.expression (.assign () x e)) (.keyword .var :: .identifier x :: .equal :: w)
  | logical {l ops u v} : Derives (.comparison l) u → Derives (.operations .logical ops) v →
      Derives (.expression (folded l ops)) (u ++ v)
  | not {e w} : Derives (.comparison e) w →
      Derives (.comparison (.unary () .not e)) (.keyword .not :: w)
  | arithmetic {e w} : Derives (.arithmetic e) w → Derives (.comparison e) w
  | relation {l op r u v} : Derives (.arithmetic l) u → op ∈ comparisons →
      Derives (.arithmetic r) v → Derives (.comparison (.binary () op l r)) (u ++ op.lexeme :: v)
  | sum {l ops u v} : Derives (.term l) u → Derives (.operations .additive ops) v →
      Derives (.arithmetic (folded l ops)) (u ++ v)
  | product {l ops u v} : Derives (.factor l) u → Derives (.operations .multiplicative ops) v →
      Derives (.term (folded l ops)) (u ++ v)
  | sign {op e w} : op ∈ signs → Derives (.factor e) w →
      Derives (.factor (.unary () op e)) (op.lexeme :: w)
  | power {e w} : Derives (.power e) w → Derives (.factor e) w
  | raise {b es u v} : Derives (.call b) u → Derives (.exponents es) v →
      Derives (.power (raised b es)) (u ++ v)
  | callee {e w} : Derives (.atom e) w → Derives (.call e) w
  | call {c as u v} : Derives (.atom c) u → Derives (.arguments as) v →
      Derives (.call (.call () c as)) (u ++ .openParen :: (v ++ [.closeParen]))
  | int {n} : Derives (.atom (.number () (.int n))) [.int n]
  | float {x} : Derives (.atom (.number () (.float x))) [.float x]
  | string {s} : Derives (.atom (.string () s)) [.string s]
  | identifier {x} : Derives (.atom (.var () x)) [.identifier x]
  | group {e w} : Derives (.expression e) w →
      Derives (.atom e) (.openParen :: (w ++ [.closeParen]))
  | choice {c b as u v} : Derives (.guarded c b) u → Derives (.arms as) v →
      Derives (.atom (.choose () c b as)) (.keyword .if_ :: (u ++ v))
  | count {x a b s e u v w z} : Derives (.expression a) u → Derives (.expression b) v →
      Derives (.step s) w → Derives (.expression e) z →
      Derives (.atom (.count () x a b s e)) (.keyword .for_ :: .identifier x :: .equal ::
        (u ++ .keyword .to_ :: (v ++ (w ++ .keyword .then_ :: z))))
  | loop {c b w} : Derives (.guarded c b) w →
      Derives (.atom (.loop () c b)) (.keyword .while_ :: w)
  | function {x : Option String} {ps b w} : Derives (.expression b) w →
      Derives (.atom (.function () x ps b)) (.keyword .fun_ :: (x.toList.map Lexeme.identifier ++
        .openParen :: (parameterLexemes ps ++ .closeParen :: .arrow :: w)))
  | noOperation {t} : Derives (.operations t []) []
  | operation {t op r ops u v} : op ∈ operators t → Derives (operand t r) u →
      Derives (.operations t ops) v →
      Derives (.operations t ((op, r) :: ops)) (op.lexeme :: (u ++ v))
  | noExponent : Derives (.exponents []) []
  | exponent {e es u v} : Derives (.factor e) u → Derives (.exponents es) v →
      Derives (.exponents (e :: es)) (.caret :: (u ++ v))
  | noArgument : Derives (.arguments []) []
  | argument {e es u v} : Derives (.expression e) u → Derives (.moreArguments es) v →
      Derives (.arguments (e :: es)) (u ++ v)
  | noMore : Derives (.moreArguments []) []
  | more {e es u v} : Derives (.expression e) u → Derives (.moreArguments es) v →
      Derives (.moreArguments (e :: es)) (.comma :: (u ++ v))
  | guarded {c b u v} : Derives (.expression c) u → Derives (.expression b) v →
      Derives (.guarded c b) (u ++ .keyword .then_ :: v)
  | noArm : Derives (.arms .done) []
  | otherwise {b w} : Derives (.expression b) w →
      Derives (.arms (.otherwise b)) (.keyword .else_ :: w)
  | elif {c b as u v} : Derives (.guarded c b) u → Derives (.arms as) v →
      Derives (.arms (.elif c b as)) (.keyword .elif :: (u ++ v))
  | noStep : Derives (.step none) []
  | step {e w} : Derives (.expression e) w → Derives (.step (some e)) (.keyword .step :: w)

/-- How tightly a phrase binds, from the loosest. -/
inductive Level where
  /-- A form that is never part of a larger one without parentheses around it. -/
  | closed
  | expression
  | logical
  | comparison
  | additive
  | multiplicative
  | factor
  | power
  | call
  | atom
deriving DecidableEq

def Level.rank : Level → Nat
  | closed => 0
  | expression => 1
  | logical => 2
  | comparison => 3
  | additive => 4
  | multiplicative => 5
  | factor => 6
  | power => 7
  | call => 8
  | atom => 9

/-- The tightest phrase that starts with the lexeme, `closed` if no phrase of an expression does. -/
def opening : Lexeme → Level
  | .keyword .var => .expression
  | .keyword .not => .comparison
  | .plus | .minus => .factor
  | .int _ | .float _ | .string _ | .identifier _ | .openParen | .keyword .if_ | .keyword .for_
  | .keyword .while_ | .keyword .fun_ => .atom
  | _ => .closed

/-- The level of a phrase that is a whole expression or an operand. -/
def Phrase.level : Phrase → Level
  | expression _ => .expression
  | comparison _ => .comparison
  | arithmetic _ => .additive
  | term _ => .multiplicative
  | factor _ => .factor
  | power _ => .power
  | call _ => .call
  | atom _ => .atom
  | _ => .closed

/-- A phrase starts with a lexeme that opens a phrase of its level. -/
theorem Derives.rank_le_opening {p : Phrase} {w : List Lexeme} (h : Derives p w)
    (z : List Lexeme) : p.level.rank ≤ (opening ((w ++ z).headD .eof)).rank := by
  induction h generalizing z with
  | assign | not | int | float | string | identifier | group | choice | count | loop | function =>
    exact Nat.le_of_ble_eq_true rfl
  | @sign op e w hop =>
    simp only [signs, List.mem_cons, List.not_mem_nil, or_false] at hop
    rcases hop with rfl | rfl <;> exact Nat.le_of_ble_eq_true rfl
  | logical _ _ ih _ | relation _ _ _ ih _ | sum _ _ ih _ | product _ _ ih _ | raise _ _ ih _
  | call _ _ ih _ =>
    rw [List.append_assoc]
    exact Nat.le_trans (Nat.le_of_ble_eq_true rfl) (ih _)
  | arithmetic _ ih | power _ ih | callee _ ih =>
    exact Nat.le_trans (Nat.le_of_ble_eq_true rfl) (ih z)
  | _ => exact Nat.zero_le _

end Grammar

end Minibasic

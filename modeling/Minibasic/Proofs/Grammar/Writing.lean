import Minibasic.Proofs.Grammar

/-!
How a tree is written. Each tree has the level of the phrases that can stand for it without
parentheses, and each place in a larger tree asks for a level; parentheses stand where the tree is
looser than its place. Choices, loops and functions have them everywhere.
-/

namespace Minibasic

open Minibasic.Grammar (Level)

namespace BinaryOp

/-- The level of an operation. -/
def level : BinaryOp → Level
  | and | or => .logical
  | eq | ne | lt | le | gt | ge => .comparison
  | add | sub => .additive
  | mul | div => .multiplicative
  | pow => .power

/-- The level that the left operand has to have. Operations that associate to the left take one of
their own level there. -/
def left : BinaryOp → Level
  | and | or => .logical
  | eq | ne | lt | le | gt | ge => .additive
  | add | sub => .additive
  | mul | div => .multiplicative
  | pow => .call

/-- The level that the right operand has to have. -/
def right : BinaryOp → Level
  | and | or => .comparison
  | eq | ne | lt | le | gt | ge => .additive
  | add | sub => .multiplicative
  | mul | div => .factor
  | pow => .factor

end BinaryOp

/-- The level of an operation and of its operand. -/
def UnaryOp.level : UnaryOp → Level
  | plus | minus => .factor
  | not => .comparison

namespace Grammar

def level : Tree → Level
  | .number .. | .string .. | .var .. => .atom
  | .call .. => .call
  | .binary _ op _ _ => op.level
  | .unary _ op _ => op.level
  | .assign .. => .expression
  | .choose .. | .count .. | .loop .. | .function .. => .closed

/-- The lexemes `w` of a tree of level `inner`, in a place that asks for level `outer`. -/
def enclosed (outer inner : Level) (w : List Lexeme) : List Lexeme :=
  if outer.rank ≤ inner.rank then w else .openParen :: (w ++ [.closeParen])

mutual

/-- The tree without parentheses around it. -/
def bare : Tree → List Lexeme
  | .number _ (.int n) => [.int n]
  | .number _ (.float x) => [.float x]
  | .string _ s => [.string s]
  | .var _ x => [.identifier x]
  | .assign _ x e =>
    .keyword .var :: .identifier x :: .equal :: enclosed .expression (level e) (bare e)
  | .binary _ op l r =>
    enclosed op.left (level l) (bare l) ++ op.lexeme :: enclosed op.right (level r) (bare r)
  | .unary _ op e => op.lexeme :: enclosed op.level (level e) (bare e)
  | .choose _ c b as =>
    .keyword .if_ :: (enclosed .expression (level c) (bare c) ++
      .keyword .then_ :: (enclosed .expression (level b) (bare b) ++ bareArms as))
  | .count _ x a b s e =>
    .keyword .for_ :: .identifier x :: .equal :: (enclosed .expression (level a) (bare a) ++
      .keyword .to_ :: (enclosed .expression (level b) (bare b) ++ (bareStep s ++
        .keyword .then_ :: enclosed .expression (level e) (bare e))))
  | .loop _ c b =>
    .keyword .while_ :: (enclosed .expression (level c) (bare c) ++
      .keyword .then_ :: enclosed .expression (level b) (bare b))
  | .function _ x ps b =>
    .keyword .fun_ :: (x.toList.map Lexeme.identifier ++ .openParen ::
      (parameterLexemes ps ++ .closeParen :: .arrow :: enclosed .expression (level b) (bare b)))
  | .call _ c as =>
    enclosed .atom (level c) (bare c) ++ .openParen :: (bareArguments as ++ [.closeParen])

def bareArms : Arms Unit → List Lexeme
  | .done => []
  | .otherwise b => .keyword .else_ :: enclosed .expression (level b) (bare b)
  | .elif c b as =>
    .keyword .elif :: (enclosed .expression (level c) (bare c) ++
      .keyword .then_ :: (enclosed .expression (level b) (bare b) ++ bareArms as))

def bareStep : Option Tree → List Lexeme
  | none => []
  | some e => .keyword .step :: enclosed .expression (level e) (bare e)

def bareArguments : List Tree → List Lexeme
  | [] => []
  | e :: es => enclosed .expression (level e) (bare e) ++ bareMore es

/-- The arguments after the first. -/
def bareMore : List Tree → List Lexeme
  | [] => []
  | e :: es => .comma :: (enclosed .expression (level e) (bare e) ++ bareMore es)

end

/-- The tree in a place that asks for level `l`. -/
def write (l : Level) (e : Tree) : List Lexeme := enclosed l (level e) (bare e)

theorem write_of_le {l : Level} {e : Tree} (h : l.rank ≤ (level e).rank) : write l e = bare e :=
  if_pos h

theorem write_of_lt {l : Level} {e : Tree} (h : (level e).rank < l.rank) :
    write l e = .openParen :: (bare e ++ [.closeParen]) :=
  if_neg (Nat.not_le.mpr h)

theorem level_binary (op : BinaryOp) (l r : Tree) : level (.binary () op l r) = op.level := rfl

theorem level_unary (op : UnaryOp) (e : Tree) : level (.unary () op e) = op.level := rfl

theorem bare_binary (op : BinaryOp) (l r : Tree) :
    bare (.binary () op l r) = write op.left l ++ op.lexeme :: write op.right r := rfl

theorem bare_call (c : Tree) (as : List Tree) :
    bare (.call () c as) = write .atom c ++ .openParen :: (bareArguments as ++ [.closeParen]) := rfl

/-- The next looser level. -/
def Level.looser : Level → Level
  | closed | expression => closed
  | logical => expression
  | comparison => logical
  | additive => comparison
  | multiplicative => additive
  | factor => multiplicative
  | power => factor
  | call => power
  | atom => call

theorem Level.rank_looser (l : Level) : l.looser.rank = l.rank - 1 := by
  cases l <;> rfl

theorem Level.rank_injective {k l : Level} (h : k.rank = l.rank) : k = l := by
  cases k <;> cases l <;> first | rfl | exact absurd h (by decide)

theorem Level.rank_le_atom (l : Level) : l.rank ≤ Level.atom.rank := by
  cases l <;> decide

theorem level_rank_le_left (op : BinaryOp) : op.level.rank ≤ op.left.rank := by
  cases op <;> decide

/-- What is written in a place starts with a lexeme that opens a phrase of its level, if that is so
for the tree without parentheses. -/
theorem rank_le_opening_write {l : Level} {e : Tree} {z : List Lexeme}
    (h : ∀ z, (level e).rank ≤ (opening ((bare e ++ z).headD .eof)).rank) :
    l.rank ≤ (opening ((write l e ++ z).headD .eof)).rank := by
  by_cases hl : l.rank ≤ (level e).rank
  · rw [write_of_le hl]
    exact Nat.le_trans hl (h z)
  · rw [write_of_lt (Nat.lt_of_not_le hl)]
    exact l.rank_le_atom

theorem level_rank_le_opening : ∀ (e : Tree) (z : List Lexeme),
    (level e).rank ≤ (opening ((bare e ++ z).headD .eof)).rank
  | .number () (.int _), _ | .number () (.float _), _ | .string .., _ | .var .., _
  | .assign .., _ => Nat.le_of_ble_eq_true rfl
  | .choose .., _ | .count .., _ | .loop .., _ | .function .., _ => Nat.zero_le _
  | .unary () op _, _ => by cases op <;> exact Nat.le_of_ble_eq_true rfl
  | .binary () op l r, z => by
    rw [bare_binary, List.append_assoc]
    have h := rank_le_opening_write (l := op.left)
      (z := op.lexeme :: write op.right r ++ z) (level_rank_le_opening l)
    exact Nat.le_trans (level_rank_le_left op) h
  | .call () c as, z => by
    rw [bare_call, List.append_assoc]
    have h := rank_le_opening_write (l := .atom)
      (z := .openParen :: (bareArguments as ++ [.closeParen]) ++ z) (level_rank_le_opening c)
    exact Nat.le_trans (Level.rank_le_atom .call) h

/-- The loosest level of a phrase that is left whole by a lexeme behind it. -/
def ending : Lexeme → Level
  | .closeParen => .closed
  | .keyword .and | .keyword .or => .comparison
  | .equalEqual | .bangEqual | .less | .lessEqual | .greater | .greaterEqual => .additive
  | .plus | .minus => .multiplicative
  | .star | .slash => .factor
  | .caret => .call
  | .openParen => .atom
  | _ => .expression

theorem eq_closeParen_of_ending {l : Lexeme} (h : (ending l).rank ≤ Level.closed.rank) :
    l = .closeParen := by
  unfold ending at h
  split at h <;> first | rfl | exact absurd h (by decide)

/-- What leaves a power whole leaves the factors in it whole. -/
theorem ending_le_factor {l : Lexeme} (h : (ending l).rank ≤ Level.power.rank) :
    (ending l).rank ≤ Level.factor.rank := by
  revert h
  unfold ending
  split <;> decide

end Grammar

end Minibasic

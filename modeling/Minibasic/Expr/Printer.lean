import Minibasic.Expr
import Minibasic.Text.Quoted

/-!
Expressions as nested lists, operators first: `(+ 1 (* 2 3))`.
-/

namespace Minibasic

variable {α : Type}

mutual

def Expr.print : Expr α → List Char
  | .number _ n => n.text
  | .string _ s => Text.quote s.toList
  | .var _ x => x.toList
  | .assign _ x e => "(VAR ".toList ++ x.toList ++ ' ' :: e.print ++ [')']
  | .binary _ op l r => '(' :: op.text.toList ++ ' ' :: l.print ++ ' ' :: r.print ++ [')']
  | .unary _ op e => '(' :: op.text.toList ++ ' ' :: e.print ++ [')']
  | .choose _ c b as =>
    "(IF [".toList ++ c.print ++ ' ' :: b.print ++ ']' :: as.print ++ [')']
  | .count _ x a b s e =>
    "(FOR ".toList ++ x.toList ++ ' ' :: a.print ++ ' ' :: b.print ++ ' ' :: Expr.printStep s ++
      ' ' :: e.print ++ [')']
  | .loop _ c b => "(WHILE ".toList ++ c.print ++ ' ' :: b.print ++ [')']
  | .function _ x ps b =>
    "(FUN ".toList ++ (x.getD anonymousName).toList ++ " (".toList ++
      (String.intercalate " " ps).toList ++ ") ".toList ++ b.print ++ [')']
  | .call _ c as => "(call ".toList ++ c.print ++ Expr.printAll as ++ [')']

def Arms.print : Arms α → List Char
  | .done => []
  | .otherwise b => " [ELSE ".toList ++ b.print ++ [']']
  | .elif c b as => " [".toList ++ c.print ++ ' ' :: b.print ++ ']' :: as.print

/-- The step of a loop, one if it is not written. -/
def Expr.printStep : Option (Expr α) → List Char
  | none => ['1']
  | some e => e.print

/-- Each expression after a blank. -/
def Expr.printAll : List (Expr α) → List Char
  | [] => []
  | e :: es => ' ' :: e.print ++ Expr.printAll es

end

def Expr.text (e : Expr α) : String := String.ofList e.print

end Minibasic

import Minibasic.Number

/-!
Expressions. Every node bears a mark; the parser marks nodes with spans, and trees are compared
without their marks by mapping all of them to one.
-/

namespace Minibasic

inductive BinaryOp where
  | add
  | sub
  | mul
  | div
  | pow
  | eq
  | ne
  | lt
  | le
  | gt
  | ge
  | and
  | or
deriving DecidableEq

def BinaryOp.text : BinaryOp → String
  | add => "+"
  | sub => "-"
  | mul => "*"
  | div => "/"
  | pow => "^"
  | eq => "=="
  | ne => "!="
  | lt => "<"
  | le => "<="
  | gt => ">"
  | ge => ">="
  | and => "AND"
  | or => "OR"

inductive UnaryOp where
  | plus
  | minus
  | not
deriving DecidableEq

def UnaryOp.text : UnaryOp → String
  | plus => "+"
  | minus => "-"
  | not => "NOT"

mutual

/-- An expression with marks of type `α`. -/
inductive Expr (α : Type) where
  | number (mark : α) (n : Number)
  | string (mark : α) (s : String)
  | var (mark : α) (name : String)
  | assign (mark : α) (name : String) (value : Expr α)
  | binary (mark : α) (op : BinaryOp) (left right : Expr α)
  | unary (mark : α) (op : UnaryOp) (operand : Expr α)
  /-- A condition, what it leads to, and the arms tried when it does not hold. -/
  | choose (mark : α) (test body : Expr α) (arms : Arms α)
  /-- A loop over the integers from `start` up or down to `stop`, `stop` not included. -/
  | count (mark : α) (name : String) (start stop : Expr α) (step : Option (Expr α)) (body : Expr α)
  /-- A loop that lasts as long as `test` holds. -/
  | loop (mark : α) (test body : Expr α)
  | function (mark : α) (name : Option String) (params : List String) (body : Expr α)
  | call (mark : α) (callee : Expr α) (arguments : List (Expr α))

/-- What follows the first arm of a choice. -/
inductive Arms (α : Type) where
  | done
  | otherwise (body : Expr α)
  | elif (test body : Expr α) (arms : Arms α)

end

/-- The name that stands for the missing one of an anonymous function. -/
def anonymousName : String := "<anonymous>"

namespace Expr

variable {α β : Type}

def mark : Expr α → α
  | number m _ | string m _ | .var m _ | assign m _ _ | binary m _ _ _ | unary m _ _
  | choose m _ _ _ | count m _ _ _ _ _ | .loop m _ _ | function m _ _ _ | call m _ _ => m

end Expr

/-- The mark of the expression that ends the arms. -/
def Arms.lastMark? {α : Type} : Arms α → Option α
  | .done => none
  | .otherwise body => some body.mark
  | .elif _ body arms => some (arms.lastMark?.getD body.mark)

variable {α β : Type}

mutual

/-- The expression with every mark replaced by its image under `f`. -/
def Expr.map (f : α → β) : Expr α → Expr β
  | .number m n => .number (f m) n
  | .string m s => .string (f m) s
  | .var m x => .var (f m) x
  | .assign m x e => .assign (f m) x (e.map f)
  | .binary m op l r => .binary (f m) op (l.map f) (r.map f)
  | .unary m op e => .unary (f m) op (e.map f)
  | .choose m c b as => .choose (f m) (c.map f) (b.map f) (as.map f)
  | .count m x a b s e => .count (f m) x (a.map f) (b.map f) (Expr.mapStep f s) (e.map f)
  | .loop m c b => .loop (f m) (c.map f) (b.map f)
  | .function m x ps b => .function (f m) x ps (b.map f)
  | .call m c as => .call (f m) (c.map f) (Expr.mapAll f as)

def Arms.map (f : α → β) : Arms α → Arms β
  | .done => .done
  | .otherwise b => .otherwise (b.map f)
  | .elif c b as => .elif (c.map f) (b.map f) (as.map f)

def Expr.mapStep (f : α → β) : Option (Expr α) → Option (Expr β)
  | none => none
  | some e => some (e.map f)

def Expr.mapAll (f : α → β) : List (Expr α) → List (Expr β)
  | [] => []
  | e :: es => e.map f :: Expr.mapAll f es

end

/-- The expression without its marks. -/
def Expr.erase (e : Expr α) : Expr Unit := e.map fun _ => ()

mutual

/-- The expression and all those in it, each before the ones inside it, and these in the order in
which they are written. -/
def Expr.nodes : Expr α → List (Expr α)
  | .number m n => [.number m n]
  | .string m s => [.string m s]
  | .var m x => [.var m x]
  | .assign m x e => .assign m x e :: e.nodes
  | .binary m op l r => .binary m op l r :: (l.nodes ++ r.nodes)
  | .unary m op e => .unary m op e :: e.nodes
  | .choose m c b as => .choose m c b as :: (c.nodes ++ b.nodes ++ as.nodes)
  | .count m x a b s e =>
    .count m x a b s e :: (a.nodes ++ b.nodes ++ Expr.stepNodes s ++ e.nodes)
  | .loop m c b => .loop m c b :: (c.nodes ++ b.nodes)
  | .function m x ps b => .function m x ps b :: b.nodes
  | .call m c as => .call m c as :: (c.nodes ++ Expr.allNodes as)

def Arms.nodes : Arms α → List (Expr α)
  | .done => []
  | .otherwise b => b.nodes
  | .elif c b as => c.nodes ++ b.nodes ++ as.nodes

def Expr.stepNodes : Option (Expr α) → List (Expr α)
  | none => []
  | some e => e.nodes

def Expr.allNodes : List (Expr α) → List (Expr α)
  | [] => []
  | e :: es => e.nodes ++ Expr.allNodes es

end

end Minibasic

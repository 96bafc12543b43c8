import Minibasic.Diagnostic
import Minibasic.Expr
import Minibasic.Token

/-!
From tokens to an expression, by recursive descent without backtracking: each rule looks at one
token, and what it has taken it never gives back. The fuel bounds the depth of the descent; enough
for any list of tokens is known from its length.
-/

namespace Minibasic

/-- What a syntax error asks for. -/
inductive Expectation where
  | expression
  | operand
  | atom
  | argument
  | operator
  | identifier
  | equal
  | then_
  | to_
  | arrow
  | openParen
  | closeParen
  | commaOrClose
  | identifierOrOpen
  | identifierOrClose
deriving DecidableEq

def Expectation.text : Expectation → String
  | expression =>
    "Expected 'VAR', 'IF', 'FOR', 'WHILE', 'FUN', int, float, identifier, '+', '-', '(' or 'NOT'"
  | operand =>
    "Expected int, float, identifier, '+', '-', '(', 'IF', 'FOR', 'WHILE', 'FUN' or 'NOT'"
  | atom => "Expected int, float, identifier, '+', '-', '(', 'IF', 'FOR', 'WHILE' or 'FUN'"
  | argument =>
    "Expected ')', 'VAR', 'IF', 'FOR', 'WHILE', 'FUN', int, float, identifier, '+', '-', '(' " ++
      "or 'NOT'"
  | operator =>
    "Expected '+', '-', '*', '/', '^', '==', '!=', '<', '>', '<=', '>=', 'AND' or 'OR'"
  | identifier => "Expected identifier"
  | equal => "Expected '='"
  | then_ => "Expected 'THEN'"
  | to_ => "Expected 'TO'"
  | arrow => "Expected '->'"
  | openParen => "Expected '('"
  | closeParen => "Expected ')'"
  | commaOrClose => "Expected ',' or ')'"
  | identifierOrOpen => "Expected identifier or '('"
  | identifierOrClose => "Expected identifier or ')'"

namespace Parser

/-- What a rule makes of the tokens ahead: a result and the tokens after it, or what it misses
before which tokens. -/
inductive Outcome (α : Type) where
  | found (a : α) (rest : List Token)
  | failed (e : Expectation) (rest : List Token)
  | exhausted

def Outcome.map {α β : Type} (f : α → β) : Outcome α → Outcome β
  | found a rest => .found (f a) rest
  | failed e rest => .failed e rest
  | exhausted => .exhausted

def Rule (α : Type) : Type := List Token → Outcome α

namespace Rule

variable {α β : Type}

def pure (a : α) : Rule α := fun ts => .found a ts

def bind (r : Rule α) (next : α → Rule β) : Rule β := fun ts =>
  match r ts with
  | .found a rest => next a rest
  | .failed e rest => .failed e rest
  | .exhausted => .exhausted

instance : Monad Rule where
  pure := pure
  bind := bind

def fail (e : Expectation) : Rule α := fun ts => .failed e ts

def exhausted : Rule α := fun _ => .exhausted

/-- A rule that asks for `e` if it fails at its first token. -/
def orElse (r : Rule α) (e : Expectation) : Rule α := fun ts =>
  match r ts with
  | .failed e' rest => if rest.length = ts.length then .failed e ts else .failed e' rest
  | o => o

end Rule

/-- The lexeme at the front. A list without its end token counts as ended. -/
def lexemeAt : List Token → Lexeme
  | [] => .eof
  | t :: _ => t.lexeme

/-- The span of the token at the front. -/
def spanAt : List Token → Span
  | [] => default
  | t :: _ => t.span

def peek : Rule Lexeme := fun ts => .found (lexemeAt ts) ts

/-- Takes the token at the front and gives its span. The end token stays. -/
def advance : Rule Span := fun ts =>
  .found (spanAt ts) (if lexemeAt ts = .eof then ts else ts.tail)

/-- Takes the lexeme `l`. -/
def expect (l : Lexeme) (e : Expectation) : Rule Span := do
  if (← peek) = l then advance else Rule.fail e

/-- Takes any identifier. -/
def identifier (e : Expectation) : Rule String := do
  match ← peek with
  | .identifier name => let _ ← advance; return name
  | _ => Rule.fail e

/-- Takes an identifier after each comma. -/
def moreParameters : Rule (List String)
  | ⟨.comma, _⟩ :: ⟨.identifier name, _⟩ :: ts => (moreParameters ts).map (name :: ·)
  | ⟨.comma, _⟩ :: ts => .failed .identifier ts
  | ts => .found [] ts

/-- The parameters after an opening parenthesis, and the closing one. -/
def parameters : Rule (List String) := do
  match ← peek with
  | .identifier name => do
    let _ ← advance
    let names ← moreParameters
    let _ ← expect .closeParen .commaOrClose
    return name :: names
  | _ => do
    let _ ← expect .closeParen .identifierOrClose
    return []

/-- Binary operators that are read from left to right, by how tightly they bind. -/
inductive Tier where
  | logical
  | additive
  | multiplicative
deriving DecidableEq

def Tier.op? : Tier → Lexeme → Option BinaryOp
  | logical, .keyword .and => some .and
  | logical, .keyword .or => some .or
  | additive, .plus => some .add
  | additive, .minus => some .sub
  | multiplicative, .star => some .mul
  | multiplicative, .slash => some .div
  | _, _ => none

def comparisonOp? : Lexeme → Option BinaryOp
  | .equalEqual => some .eq
  | .bangEqual => some .ne
  | .less => some .lt
  | .lessEqual => some .le
  | .greater => some .gt
  | .greaterEqual => some .ge
  | _ => none

def sign? : Lexeme → Option UnaryOp
  | .plus => some .plus
  | .minus => some .minus
  | _ => none

/-- An expression of the parser, each node marked with the text it was read from. -/
abbrev Node := Expr Span

/-- The node for an operator between two operands, from the start of the one to the stop of the
other. -/
def joined (op : BinaryOp) (l r : Node) : Node := .binary (l.mark.join r.mark) op l r

mutual

/-- An assignment, or operands between AND and OR. -/
def expression : Nat → Rule Node
  | 0 => Rule.exhausted
  | fuel + 1 => do
    match ← peek with
    | .keyword .var => do
      let start ← advance
      let name ← identifier .identifier
      let _ ← expect .equal .equal
      let value ← expression fuel
      return .assign (start.join value.mark) name value
    | _ => (binary fuel .logical).orElse .expression

/-- Operands of a tier between operators of that tier. -/
def binary : Nat → Tier → Rule Node
  | 0, _ => Rule.exhausted
  | fuel + 1, t => do
    let left ← operand fuel t
    chain fuel t left

def operand : Nat → Tier → Rule Node
  | 0, _ => Rule.exhausted
  | fuel + 1, .logical => comparison fuel
  | fuel + 1, .additive => binary fuel .multiplicative
  | fuel + 1, .multiplicative => factor fuel

/-- The operators of a tier and their right operands, after the operand `left`. -/
def chain : Nat → Tier → Node → Rule Node
  | 0, _, _ => Rule.exhausted
  | fuel + 1, t, left => do
    match t.op? (← peek) with
    | some op => do
      let _ ← advance
      let right ← operand fuel t
      chain fuel t (joined op left right)
    | none => return left

/-- A negation, or at most one comparison between sums. -/
def comparison : Nat → Rule Node
  | 0 => Rule.exhausted
  | fuel + 1 => do
    match ← peek with
    | .keyword .not => do
      let start ← advance
      let e ← comparison fuel
      return .unary (start.join e.mark) .not e
    | _ => (relation fuel).orElse .operand

def relation : Nat → Rule Node
  | 0 => Rule.exhausted
  | fuel + 1 => do
    let left ← binary fuel .additive
    match comparisonOp? (← peek) with
    | some op => do
      let _ ← advance
      let right ← binary fuel .additive
      return joined op left right
    | none => return left

/-- Signs before a power. -/
def factor : Nat → Rule Node
  | 0 => Rule.exhausted
  | fuel + 1 => do
    match sign? (← peek) with
    | some op => do
      let start ← advance
      let e ← factor fuel
      return .unary (start.join e.mark) op e
    | none => power fuel

/-- A call, raised to the factors behind it. -/
def power : Nat → Rule Node
  | 0 => Rule.exhausted
  | fuel + 1 => do
    let base ← call fuel
    exponents fuel base

/-- A factor after each caret. The first takes all that follow it, so that a power of a power is
read from the right, and an exponent may have a sign. -/
def exponents : Nat → Node → Rule Node
  | 0, _ => Rule.exhausted
  | fuel + 1, base => do
    match ← peek with
    | .caret => do
      let _ ← advance
      let exponent ← factor fuel
      exponents fuel (joined .pow base exponent)
    | _ => return base

/-- An atom with at most one list of arguments. -/
def call : Nat → Rule Node
  | 0 => Rule.exhausted
  | fuel + 1 => do
    let callee ← atom fuel
    match ← peek with
    | .openParen => do
      let _ ← advance
      let as ← arguments fuel
      let stop ← expect .closeParen .commaOrClose
      return .call (callee.mark.join stop) callee as
    | _ => return callee

/-- The arguments between parentheses. -/
def arguments : Nat → Rule (List Node)
  | 0 => Rule.exhausted
  | fuel + 1 => do
    match ← peek with
    | .closeParen => return []
    | _ => do
      let e ← (expression fuel).orElse .argument
      let es ← moreArguments fuel
      return e :: es

/-- An argument after each comma. -/
def moreArguments : Nat → Rule (List Node)
  | 0 => Rule.exhausted
  | fuel + 1 => do
    match ← peek with
    | .comma => do
      let _ ← advance
      let e ← expression fuel
      let es ← moreArguments fuel
      return e :: es
    | _ => return []

def atom : Nat → Rule Node
  | 0 => Rule.exhausted
  | fuel + 1 => do
    match ← peek with
    | .openParen => do
      let _ ← advance
      let e ← expression fuel
      let _ ← expect .closeParen .closeParen
      return e
    | .keyword .if_ => choice fuel
    | .keyword .for_ => count fuel
    | .keyword .while_ => loop fuel
    | .keyword .fun_ => function fuel
    | .identifier name => return .var (← advance) name
    | .string s => return .string (← advance) s
    | .float x => return .number (← advance) (.float x)
    | .int n => return .number (← advance) (.int n)
    | _ => Rule.fail .atom

/-- A condition, THEN, and what follows from it. -/
def guarded : Nat → Rule (Node × Node)
  | 0 => Rule.exhausted
  | fuel + 1 => do
    let test ← expression fuel
    let _ ← expect (.keyword .then_) .then_
    let body ← expression fuel
    return (test, body)

def choice : Nat → Rule Node
  | 0 => Rule.exhausted
  | fuel + 1 => do
    let start ← advance
    let (test, body) ← guarded fuel
    let as ← arms fuel
    return .choose (start.join (as.lastMark?.getD body.mark)) test body as

/-- The arms after the first: an ELIF or ELSE belongs to the innermost choice that it follows. -/
def arms : Nat → Rule (Arms Span)
  | 0 => Rule.exhausted
  | fuel + 1 => do
    match ← peek with
    | .keyword .elif => do
      let _ ← advance
      let (test, body) ← guarded fuel
      let as ← arms fuel
      return .elif test body as
    | .keyword .else_ => do
      let _ ← advance
      let body ← expression fuel
      return .otherwise body
    | _ => return .done

def count : Nat → Rule Node
  | 0 => Rule.exhausted
  | fuel + 1 => do
    let start ← advance
    let name ← identifier .identifier
    let _ ← expect .equal .equal
    let first ← expression fuel
    let _ ← expect (.keyword .to_) .to_
    let last ← expression fuel
    let by_ ← step fuel
    let _ ← expect (.keyword .then_) .then_
    let body ← expression fuel
    return .count (start.join body.mark) name first last by_ body

def step : Nat → Rule (Option Node)
  | 0 => Rule.exhausted
  | fuel + 1 => do
    match ← peek with
    | .keyword .step => do
      let _ ← advance
      return some (← expression fuel)
    | _ => return none

def loop : Nat → Rule Node
  | 0 => Rule.exhausted
  | fuel + 1 => do
    let start ← advance
    let (test, body) ← guarded fuel
    return .loop (start.join body.mark) test body

def function : Nat → Rule Node
  | 0 => Rule.exhausted
  | fuel + 1 => do
    let start ← advance
    match ← peek with
    | .identifier name => do
      let _ ← advance
      let _ ← expect .openParen .openParen
      let (ps, body) ← signature fuel
      return .function (start.join body.mark) (some name) ps body
    | _ => do
      let _ ← expect .openParen .identifierOrOpen
      let (ps, body) ← signature fuel
      return .function (start.join body.mark) none ps body

/-- Parameters, arrow and body of a function. -/
def signature : Nat → Rule (List String × Node)
  | 0 => Rule.exhausted
  | fuel + 1 => do
    let ps ← parameters
    let _ ← expect .arrow .arrow
    let body ← expression fuel
    return (ps, body)

end

/-- An expression with nothing but the end token behind it. -/
def program (fuel : Nat) : Rule Node := do
  let e ← expression fuel
  if (← peek) = .eof then return e else Rule.fail .operator

/-- Fuel for any list of tokens: the descent from one token to the next is less than twenty rules
deep. -/
def enoughFuel (ts : List Token) : Nat := 20 * (ts.length + 1)

/-- The diagnostic of a missing `e` before the tokens `rest`. -/
def missing (e : Expectation) (rest : List Token) : Diagnostic where
  cause := .invalidSyntax e.text
  span := spanAt rest

end Parser

/-- The expression that a list of tokens makes up. -/
def parse (ts : List Token) : Except Diagnostic Parser.Node :=
  match Parser.program (Parser.enoughFuel ts) ts with
  | .found e _ => .ok e
  | .failed e rest => .error (Parser.missing e rest)
  | .exhausted => .error (Parser.missing .expression ts)

end Minibasic

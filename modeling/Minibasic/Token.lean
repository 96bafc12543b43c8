import Minibasic.Number
import Minibasic.Source
import Minibasic.Text.Quoted

/-!
Tokens: what the parser reads instead of characters.
-/

namespace Minibasic

inductive Keyword where
  | var
  | and
  | or
  | not
  | if_
  | then_
  | elif
  | else_
  | for_
  | to_
  | step
  | while_
  | fun_
deriving DecidableEq

namespace Keyword

def all : List Keyword :=
  [var, and, or, not, if_, then_, elif, else_, for_, to_, step, while_, fun_]

def text : Keyword → String
  | var => "VAR"
  | and => "AND"
  | or => "OR"
  | not => "NOT"
  | if_ => "IF"
  | then_ => "THEN"
  | elif => "ELIF"
  | else_ => "ELSE"
  | for_ => "FOR"
  | to_ => "TO"
  | step => "STEP"
  | while_ => "WHILE"
  | fun_ => "FUN"

/-- The keyword that is written so. -/
def ofText? (s : String) : Option Keyword :=
  all.find? (·.text == s)

end Keyword

/-- A token without its place. -/
inductive Lexeme where
  | int (n : Int64)
  | float (x : Float)
  | string (s : String)
  | identifier (name : String)
  | keyword (k : Keyword)
  | plus
  | minus
  | star
  | slash
  | caret
  | equal
  | equalEqual
  | bangEqual
  | less
  | lessEqual
  | greater
  | greaterEqual
  | openParen
  | closeParen
  | comma
  | arrow
  | eof
deriving DecidableEq, Inhabited

namespace Lexeme

def className : Lexeme → String
  | int _ => "INT"
  | float _ => "FLOAT"
  | string _ => "STRING"
  | identifier _ => "IDENTIFIER"
  | keyword _ => "KEYWORD"
  | plus => "PLUS"
  | minus => "MINUS"
  | star => "MUL"
  | slash => "DIV"
  | caret => "POW"
  | equal => "EQ"
  | equalEqual => "EE"
  | bangEqual => "NE"
  | less => "LT"
  | lessEqual => "LTE"
  | greater => "GT"
  | greaterEqual => "GTE"
  | openParen => "LPAREN"
  | closeParen => "RPAREN"
  | comma => "COMMA"
  | arrow => "ARROW"
  | eof => "EOF"

/-- What tells a lexeme apart from others of its class. -/
def payload? : Lexeme → Option String
  | int n => some (String.ofList (Number.int n).text)
  | float x => some (String.ofList (Number.float x).text)
  | string s => some (String.ofList (Text.quote s.toList))
  | identifier name => some name
  | keyword k => some k.text
  | _ => none

def text (l : Lexeme) : String :=
  match l.payload? with
  | some p => l.className ++ ":" ++ p
  | none => l.className

end Lexeme

structure Token where
  lexeme : Lexeme
  span : Span
deriving DecidableEq, Inhabited

def Token.text (t : Token) : String := t.lexeme.text

/-- The list of tokens on one line, as the command line prints it. -/
def Token.listText (ts : List Token) : String :=
  "[" ++ String.intercalate ", " (ts.map Token.text) ++ "]"

end Minibasic

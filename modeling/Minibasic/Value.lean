import Minibasic.Context
import Minibasic.Environment
import Minibasic.Expr
import Minibasic.Text.Quoted

/-!
Values: data, and the record of where and in which call they arose.
-/

namespace Minibasic

/-- The functions that every program starts with. -/
inductive Builtin where
  | print
  | printReturn
  | input
  | inputInt
deriving DecidableEq

namespace Builtin

def all : List Builtin := [print, printReturn, input, inputInt]

/-- The name that the function is bound to. -/
def name : Builtin → String
  | print => "print"
  | printReturn => "print_ret"
  | input => "input"
  | inputInt => "input_int"

/-- The name of the argument of functions that take one. -/
def argumentName : String := "value"

def params : Builtin → List String
  | print | printReturn => [argumentName]
  | input | inputInt => []

end Builtin

/-- A function of the program, with the environment that it was made in, or a built-in one. -/
inductive Function where
  | closure (name : Option String) (params : List String) (body : Expr Span)
      (environment : Environment)
  | builtin (b : Builtin)

namespace Function

def name : Function → String
  | closure x _ _ _ => x.getD anonymousName
  | builtin b => b.name

def params : Function → List String
  | closure _ ps _ _ => ps
  | builtin b => b.params

def arity (f : Function) : Nat := f.params.length

def text : Function → String
  | closure x _ _ _ => "<function " ++ x.getD anonymousName ++ ">"
  | builtin b => "<built-in function " ++ b.name ++ ">"

end Function

inductive Datum where
  | number (n : Number)
  | string (s : String)
  | function (f : Function)

namespace Datum

def int (n : Int64) : Datum := .number (.int n)

/-- The datum of an absent value: the integer zero. -/
def null : Datum := int 0

def ofBool (b : Bool) : Datum := int (if b then 1 else 0)

/-- Zero and the empty string count as false. -/
def isTrue : Datum → Bool
  | number n => !n.isZero
  | string s => !s.isEmpty
  | function _ => true

def typeName : Datum → String
  | number _ => "number"
  | string _ => "string"
  | function _ => "function"

def number? : Datum → Option Number
  | number n => some n
  | _ => none

/-- The text that is printed. -/
def text : Datum → String
  | number n => String.ofList n.text
  | string s => s
  | function f => f.text

/-- The text that is echoed: as printed, but with strings in quotes. -/
def echo : Datum → String
  | string s => String.ofList (Text.quote s.toList)
  | d => d.text

end Datum

/-- A datum, the text that it arose from and the call that it arose in. -/
structure Value where
  datum : Datum
  span : Option Span := none
  context : Option Context := none

end Minibasic

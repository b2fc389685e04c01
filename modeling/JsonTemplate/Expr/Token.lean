import JsonTemplate.Expr.Value
import JsonTemplate.Json.Printer

namespace JsonTemplate.Expr

open JsonTemplate.Number

inductive Operator where
  | plus
  | minus
  | logicalNot
  | bitwiseNot
  | power
  | multiply
  | divide
  | modulus
  | add
  | subtract
  | shiftLeft
  | shiftRight
  | less
  | greater
  | lessEqual
  | greaterEqual
  | equal
  | notEqual
  | strictEqual
  | strictNotEqual
  | bitwiseAnd
  | bitwiseXor
  | bitwiseOr
  | logicalAnd
  | logicalOr
  | assign
  | semicolon
  | comma
  | leftParen
  | rightParen
  deriving Repr, DecidableEq

namespace Operator

def precedence : Operator → Nat
  | plus | minus | logicalNot | bitwiseNot => 17
  | power => 16
  | multiply | divide | modulus => 15
  | add | subtract => 14
  | shiftLeft | shiftRight => 13
  | less | greater | lessEqual | greaterEqual => 12
  | equal | notEqual | strictEqual | strictNotEqual => 11
  | bitwiseAnd => 10
  | bitwiseXor => 9
  | bitwiseOr => 8
  | logicalAnd => 7
  | logicalOr => 6
  | assign => 3
  | semicolon | comma | leftParen | rightParen => 1

def groupsLeft : Operator → Bool
  | plus | minus | logicalNot | bitwiseNot | power | assign | comma => false
  | _ => true

def isUnary : Operator → Bool
  | plus | minus | logicalNot | bitwiseNot => true
  | _ => false

def name : Operator → String
  | plus => "unary plus"
  | minus => "unary minus"
  | logicalNot => "logical not"
  | bitwiseNot => "bitwise not"
  | power => "exponent"
  | multiply => "multiply"
  | divide => "divide"
  | modulus => "modulus"
  | add => "add"
  | subtract => "subtract"
  | shiftLeft => "left shift"
  | shiftRight => "right shift"
  | less => "less than"
  | greater => "greater than"
  | lessEqual => "less than or equal"
  | greaterEqual => "greater than or equal"
  | equal => "equality"
  | notEqual => "inequality"
  | strictEqual => "strict equality"
  | strictNotEqual => "strict inequality"
  | bitwiseAnd => "bitwise and"
  | bitwiseXor => "bitwise xor"
  | bitwiseOr => "bitwise or"
  | logicalAnd => "logical and"
  | logicalOr => "logical or"
  | assign => "assign"
  | semicolon => "semicolon"
  | comma => "comma"
  | leftParen => "left parenthesis"
  | rightParen => "right parenthesis"

def symbol : Operator → String
  | plus => "+"
  | minus => "-"
  | logicalNot => "!"
  | bitwiseNot => "~"
  | power => "**"
  | multiply => "*"
  | divide => "/"
  | modulus => "%"
  | add => "+"
  | subtract => "-"
  | shiftLeft => "<<"
  | shiftRight => ">>"
  | less => "<"
  | greater => ">"
  | lessEqual => "<="
  | greaterEqual => ">="
  | equal => "=="
  | notEqual => "!="
  | strictEqual => "==="
  | strictNotEqual => "!=="
  | bitwiseAnd => "&"
  | bitwiseXor => "^"
  | bitwiseOr => "|"
  | logicalAnd => "&&"
  | logicalOr => "||"
  | assign => "="
  | semicolon => ";"
  | comma => ","
  | leftParen => "("
  | rightParen => ")"

end Operator

inductive Function where
  | max
  | min
  | abs
  | num
  | str
  | bool
  deriving Repr, DecidableEq

namespace Function

def name : Function → String
  | max => "max"
  | min => "min"
  | abs => "abs"
  | num => "num"
  | str => "str"
  | bool => "bool"

def all : List Function := [max, min, abs, num, str, bool]

def ofName? (name : String) : Option Function := all.find? (·.name = name)

end Function

/-- A token of an expression. `args` marks in a postfix statement where the arguments of a call
begin. -/
inductive Token where
  | number (x : Float)
  | string (s : String)
  | bool (b : Bool)
  | null
  | var (name : VarName)
  | call (f : Function)
  | args
  | op (o : Operator)

namespace Token

def pi : Float := Float.ofBits 0x400921fb54442d18
def euler : Float := Float.ofBits 0x4005bf0a8b145769

def constant? (name : String) : Option Token :=
  if name = "null" then some .null
  else if name = "true" then some (.bool true)
  else if name = "false" then some (.bool false)
  else if name = "PI" then some (.number pi)
  else if name = "E" then some (.number euler)
  else if name = "Infinity" then some (.number Double.infinity)
  else if name = "NaN" then some (.number Double.nan)
  else none

def isOp (o : Operator) : Token → Bool
  | op p => p = o
  | _ => false

def text : Token → String
  | number x => formatNumber x
  | string s => String.ofList (Json.quote s.toList)
  | bool b => if b then "true" else "false"
  | null => "null"
  | var name => name.text
  | call f => f.name ++ "()"
  | args => "<args>"
  | op o => "<" ++ o.name ++ ">"

end Token

def listing (statements : List (List Token)) : String :=
  let statement (tokens : List Token) : String :=
    "[" ++ " ".intercalate (tokens.map Token.text) ++ "]"
  "[" ++ ", ".intercalate (statements.map statement) ++ "]"

end JsonTemplate.Expr

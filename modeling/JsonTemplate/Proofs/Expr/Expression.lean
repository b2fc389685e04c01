import JsonTemplate.Expr.Postfix

namespace JsonTemplate.Expr

def Operator.isBinary : Operator → Bool
  | .plus | .minus | .logicalNot | .bitwiseNot => false
  | .semicolon | .comma | .leftParen | .rightParen => false
  | _ => true

abbrev UnaryOperator := { o : Operator // o.isUnary = true }

abbrev BinaryOperator := { o : Operator // o.isBinary = true }

namespace UnaryOperator

def minus : UnaryOperator := ⟨.minus, rfl⟩

def logicalNot : UnaryOperator := ⟨.logicalNot, rfl⟩

end UnaryOperator

namespace BinaryOperator

def assign : BinaryOperator := ⟨.assign, rfl⟩

def add : BinaryOperator := ⟨.add, rfl⟩

def subtract : BinaryOperator := ⟨.subtract, rfl⟩

def power : BinaryOperator := ⟨.power, rfl⟩

end BinaryOperator

inductive Atom where
  | number (x : Float)
  | string (s : String)
  | bool (b : Bool)
  | null
  | var (name : VarName)

def Atom.token : Atom → Token
  | number x => .number x
  | string s => .string s
  | bool b => .bool b
  | null => .null
  | var name => .var name

inductive Expression where
  | atom (a : Atom)
  | unary (o : UnaryOperator) (operand : Expression)
  | binary (o : BinaryOperator) (left right : Expression)
  | call (f : Function) (args : List Expression)

namespace Expression

mutual

/-- The tokens of an expression with each operator after its operands. A call comes after its
arguments, which a mark begins. -/
def postfixForm : Expression → List Token
  | atom a => [a.token]
  | unary o operand => operand.postfixForm ++ [.op o]
  | binary o left right => left.postfixForm ++ right.postfixForm ++ [.op o]
  | call f args => .args :: postfixFormAll args ++ [.call f]

def postfixFormAll : List Expression → List Token
  | [] => []
  | e :: rest => e.postfixForm ++ postfixFormAll rest

end

theorem postfixForm_ne_nil (e : Expression) : e.postfixForm ≠ [] := by
  cases e <;> simp [postfixForm]

end Expression

inductive Written where
  | atom (a : Atom)
  | paren (inside : Written)
  | unary (o : UnaryOperator) (operand : Written)
  | binary (o : BinaryOperator) (left right : Written)
  | call (f : Function) (args : List Written)

namespace Written

mutual

def expression : Written → Expression
  | atom a => .atom a
  | paren inside => inside.expression
  | unary o operand => .unary o operand.expression
  | binary o left right => .binary o left.expression right.expression
  | call f args => .call f (expressionAll args)

def expressionAll : List Written → List Expression
  | [] => []
  | w :: rest => w.expression :: expressionAll rest

end

mutual

def tokens : Written → List Token
  | atom a => [a.token]
  | paren inside => .op .leftParen :: inside.tokens ++ [.op .rightParen]
  | unary o operand => .op o :: operand.tokens
  | binary o left right => left.tokens ++ .op o :: right.tokens
  | call f args => .call f :: .op .leftParen :: tokensAll args ++ [.op .rightParen]

def tokensAll : List Written → List Token
  | [] => []
  | [w] => w.tokens
  | w :: next :: rest => w.tokens ++ .op .comma :: tokensAll (next :: rest)

end

/-- How tightly the parts of what is written are bound; what has no operator outside of parentheses
cannot be torn apart. -/
def level : Written → Nat
  | unary o _ => o.val.precedence
  | binary o _ _ => o.val.precedence
  | _ => 18

mutual

/-- Whether all parentheses are there: no operand is bound less tightly than its operator, and of two
operators that bind alike the one is first that the table says. -/
def isGrouped : Written → Bool
  | atom _ => true
  | paren inside => inside.isGrouped
  | unary o operand => o.val.precedence ≤ operand.level && operand.isGrouped
  | binary o left right =>
    (if o.val.groupsLeft then o.val.precedence ≤ left.level && o.val.precedence < right.level
      else o.val.precedence < left.level && o.val.precedence ≤ right.level)
      && left.isGrouped && right.isGrouped
  | call _ args => isGroupedAll args

def isGroupedAll : List Written → Bool
  | [] => true
  | w :: rest => w.isGrouped && isGroupedAll rest

end

end Written

namespace Expression

mutual

def enclosed : Expression → Written
  | atom a => .atom a
  | unary o operand => .unary o (.paren operand.enclosed)
  | binary o left right => .binary o (.paren left.enclosed) (.paren right.enclosed)
  | call f args => .call f (enclosedAll args)

def enclosedAll : List Expression → List Written
  | [] => []
  | e :: rest => e.enclosed :: enclosedAll rest

end

end Expression

/-- What divides statements. -/
inductive Separator where
  | semicolon
  | comma

def Separator.operator : Separator → Operator
  | semicolon => .semicolon
  | comma => .comma

/-- The tokens of statements with separators between them. -/
def sequenceTokens (first : Written) (rest : List (Separator × Written)) : List Token :=
  first.tokens ++ rest.flatMap fun (separator, w) => .op separator.operator :: w.tokens

end JsonTemplate.Expr

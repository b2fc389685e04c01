import JsonTemplate.Arguments
import JsonTemplate.Json.Reader
import JsonTemplate.Node
import JsonTemplate.Pattern.Tokens

namespace JsonTemplate

open JsonTemplate.Json JsonTemplate.Number JsonTemplate.Pattern

inductive Operand where
  | literal (v : Value)
  | var (name : VarName)

namespace Operand

/-- Whether an argument can only be a JSON value. Words such as `true` are variables. -/
def looksLikeJson (raw : List Char) : Bool :=
  match raw.dropWhile (· = ' ') with
  | [] => false
  | c :: _ => c.isDigit || ['"', '-', '[', '\x7b'].contains c

def parse? (raw : List Char) : Option Operand :=
  let asVariable :=
    if variableName.matchLength raw = some raw.length then some (var (.parse raw)) else none
  if looksLikeJson raw then
    match Value.readDocument (String.ofList raw) with
    | .ok v => some (literal v)
    | .error _ => asVariable
  else asVariable

def objection (raw : String) : String :=
  s!"Argument {raw} must be a valid JSON value or variable reference."

def checkAll : List String → Except String Unit
  | [] => .ok ()
  | raw :: rest => if (parse? raw.toList).isSome then checkAll rest else .error (objection raw)

def name? : Operand → Option VarName
  | literal _ => none
  | var name => some name

def vars (args : Arguments) : List VarName :=
  if args.accepted then args.values.filterMap fun raw => (parse? raw.toList).bind name? else []

def node (lookup : VarName → Node) : Operand → Node
  | literal v => .value v
  | var name => lookup name

def nodeAt (lookup : VarName → Node) (args : Arguments) (i : Nat) : Node :=
  match (args.get? i).bind fun raw => parse? raw.toList with
  | some o => o.node lookup
  | none => .missing

end Operand

namespace Node

def same : Node → Node → Bool
  | missing, missing => true
  | nonFinite x, nonFinite y => x.same y
  | value a, value b => a.same b
  | _, _ => false

def isInteger : Node → Bool
  | value (.number (.int _)) => true
  | _ => false

/-- Compares two nodes by the kind of the left one. What has no order is equal when it is the same,
and less otherwise. -/
def order (left right : Node) : Ordering :=
  match left with
  | value (.number (.int _)) => compare left.asInt64 right.asInt64
  | value (.number (.double x)) => (Quantity.ofDouble x).totalCompare right.asQuantity
  | value (.string s) => compare s right.asText
  | value (.bool b) => compare b right.isTruthy
  | nonFinite x => x.totalCompare right.asQuantity
  | _ => if left.same right then .eq else .lt

end Node

end JsonTemplate

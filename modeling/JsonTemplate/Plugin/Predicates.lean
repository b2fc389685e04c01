import JsonTemplate.Plugin.Catalog
import JsonTemplate.Plugin.Operand

namespace JsonTemplate

inductive Comparison where
  | equal
  | notEqual
  | greater
  | greaterOrEqual
  | less
  | lessOrEqual
  deriving Repr, DecidableEq

def Comparison.holds (c : Comparison) (left right : Node) : Bool :=
  match c with
  | equal => left.same right
  | notEqual => !left.same right
  | greater => left.order right == .gt
  | greaterOrEqual => left.order right != .lt
  | less => left.order right == .lt
  | lessOrEqual => left.order right != .gt

inductive CorePredicate where
  | debug
  | compare (c : Comparison)
  | even
  | odd
  | nth
  | plural
  | singular
  deriving Repr, DecidableEq

namespace CorePredicate

def all : List CorePredicate :=
  [debug, compare .equal, compare .notEqual, compare .greater, compare .greaterOrEqual,
    compare .less, compare .lessOrEqual, even, odd, nth, plural, singular]

def name : CorePredicate → String
  | debug => "debug?"
  | compare .equal => "equal?"
  | compare .notEqual => "notEqual?"
  | compare .greater => "greaterThan?"
  | compare .greaterOrEqual => "greaterThanOrEqual?"
  | compare .less => "lessThan?"
  | compare .lessOrEqual => "lessThanOrEqual?"
  | even => "even?"
  | odd => "odd?"
  | nth => "nth?"
  | plural => "plural?"
  | singular => "singular?"

def checkOperands (count : Except Arguments.CountError Unit) (args : Arguments) :
    Except String Unit :=
  match count with
  | .error e => .error e.message
  | .ok () => Operand.checkAll args.values

def signature : CorePredicate → Signature
  | debug => ⟨false, fun _ => .ok ()⟩
  | compare _ => ⟨true, fun args => checkOperands (args.between 1 2) args⟩
  | even => ⟨false, fun args => checkOperands (args.atMost 1) args⟩
  | odd => ⟨false, fun args => checkOperands (args.atMost 1) args⟩
  | nth => ⟨false, fun args => checkOperands (args.between 1 2) args⟩
  | plural => ⟨false, fun _ => .ok ()⟩
  | singular => ⟨false, fun _ => .ok ()⟩

def vars (p : CorePredicate) (args : Arguments) : List VarName :=
  match p with
  | debug => []
  | plural => []
  | singular => []
  | _ => Operand.vars args

/-- The current node against the only argument, or the first argument against the second. -/
def pair (lookup : VarName → Node) (args : Arguments) : Node × Node :=
  if args.count = 1 then (lookup .current, Operand.nodeAt lookup args 0)
  else (Operand.nodeAt lookup args 0, Operand.nodeAt lookup args 1)

def hasParity (remainder : Int) (lookup : VarName → Node) (args : Arguments) : Bool :=
  let node := if args.count = 1 then Operand.nodeAt lookup args 0 else lookup .current
  node.isInteger && node.asInt64 % 2 == remainder

/-- Whether one integer divides another; zero divides none. -/
def divides (modulus node : Node) : Bool :=
  node.isInteger && modulus.isInteger && modulus.asInt64 != 0
    && !(node.asInt64 == Number.Double.leastInt64 && modulus.asInt64 == -1)
    && node.asInt64.tmod modulus.asInt64 == 0

def holds (p : CorePredicate) (lookup : VarName → Node) (args : Arguments) : Bool :=
  match p with
  | debug => (lookup (.parse "debug".toList)).isTruthy
  | compare c =>
    let (left, right) := pair lookup args
    c.holds left right
  | even => hasParity 0 lookup args
  | odd => hasParity 1 lookup args
  | nth =>
    if args.count = 2 then divides (Operand.nodeAt lookup args 1) (Operand.nodeAt lookup args 0)
    else divides (Operand.nodeAt lookup args 0) (lookup .current)
  | plural => 1 < (lookup .current).asInt64
  | singular => (lookup .current).asInt64 == 1

def toPredicate (p : CorePredicate) : Predicate :=
  ⟨p.signature, p.vars, fun ctx args => .ok (p.holds ctx.resolve args)⟩

end CorePredicate

end JsonTemplate

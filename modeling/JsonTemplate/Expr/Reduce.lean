import JsonTemplate.Expr.Token

namespace JsonTemplate.Expr

open JsonTemplate.Number

/-- Where statements read variables and leave their effects. `lookup` has no value for what cannot
take part in an expression. -/
structure Scope (σ : Type) where
  lookup : σ → VarName → Option ExprValue
  assign : σ → String → ExprValue → σ
  report : σ → String → σ

/-- What lies on the stack: a value, a variable not looked up yet, or the start of arguments. -/
inductive Slot where
  | value (v : ExprValue)
  | var (name : VarName)
  | args

def Slot.read {σ : Type} (scope : Scope σ) (s : σ) : Slot → Option ExprValue
  | value v => some v
  | var name => scope.lookup s name
  | args => none

inductive ReduceError where
  | call (f : Function)
  | operands (o : Operator)
  | stringTooLong (limit : Nat)
  | notEvaluable (o : Operator)
  | noValue
  deriving Repr, DecidableEq

def ReduceError.message : ReduceError → String
  | call f => s!"Error calling function {f.name}"
  | operands o => s!"Invalid arguments to operator {o.name}"
  | stringTooLong limit => s!"Concatenation would exceed maximum string length {limit}"
  | notEvaluable o => s!"Unexpected operator found during evaluation: {o.name}"
  | noValue => "Reduce error: unexpected token on stack"

/-- The first number, replaced by each later one that it does not beat. What is not a number beats
nothing. -/
def select (beats : Float → Float → Bool) : List ExprValue → Option ExprValue
  | [] => none
  | first :: rest =>
    some (.number (rest.foldl
      (fun best v => if beats best.toDouble v.toNumber then best else v.toQuantity)
      first.toQuantity))

def Function.apply (f : Function) (args : List ExprValue) : Option ExprValue :=
  match f with
  | .max => select (fun a b => b < a) args
  | .min => select (fun a b => a < b) args
  | .abs => args.head?.map fun v => .number v.toQuantity.abs
  | .num => args.head?.map fun v => .number v.toQuantity
  | .str => args.head?.map fun v => .string v.toText
  | .bool => args.head?.map fun v => .bool v.toBool

def unary (o : Operator) (v : ExprValue) : ExprValue :=
  match o with
  | .minus => .number (-v.toQuantity)
  | .plus => .number v.toQuantity
  | .logicalNot => .bool !v.toBool
  | _ => .ofDouble (Double.ofInt (-v.toInt - 1))

def compareDoubles (x y : Float) : Option Ordering :=
  if x < y then some .lt else if x == y then some .eq else if y < x then some .gt else none

/-- Two texts compare by code points, anything else by number. -/
def compareValues : ExprValue → ExprValue → Option Ordering
  | .string s, .string t => some (compare s t)
  | a, b => compareDoubles a.toNumber b.toNumber

def strictEqual (a b : ExprValue) : Bool := a.sameKind b && compareValues a b == some .eq

def onBits (f : BitVec 32 → BitVec 32 → BitVec 32) (a b : ExprValue) : ExprValue :=
  .ofDouble (Double.ofInt (f (.ofInt 32 a.toInt) (.ofInt 32 b.toInt)).toInt)

def shiftOf (b : BitVec 32) : Nat := b.toNat % 32

/-- The sum of two values: texts are joined if one of them is a text. A limit of zero is no limit.
-/
def addValues (limit : Nat) (a b : ExprValue) : Except ReduceError ExprValue :=
  if a.isString || b.isString then
    let left := a.toText
    let right := b.toText
    if 0 < limit ∧ limit < left.length + right.length then .error (.stringTooLong limit)
    else .ok (.string (left ++ right))
  else .ok (.number (a.toQuantity + b.toQuantity))

def binary (limit : Nat) (o : Operator) (a b : ExprValue) : Except ReduceError ExprValue :=
  match o with
  | .add => addValues limit a b
  | .subtract => .ok (.number (a.toQuantity - b.toQuantity))
  | .multiply => .ok (.number (a.toQuantity * b.toQuantity))
  | .divide => .ok (.number (a.toQuantity / b.toQuantity))
  | .modulus => .ok (.number (a.toQuantity % b.toQuantity))
  | .power => .ok (.number (a.toQuantity.power b.toQuantity))
  | .shiftLeft => .ok (onBits (fun x y => x <<< shiftOf y) a b)
  | .shiftRight => .ok (onBits (fun x y => x.sshiftRight (shiftOf y)) a b)
  | .bitwiseAnd => .ok (onBits (· &&& ·) a b)
  | .bitwiseXor => .ok (onBits (· ^^^ ·) a b)
  | .bitwiseOr => .ok (onBits (· ||| ·) a b)
  | .less => .ok (.bool (compareValues a b == some .lt))
  | .lessEqual =>
    .ok (.bool (compareValues a b == some .lt || compareValues a b == some .eq))
  | .greater => .ok (.bool (compareValues a b == some .gt))
  | .greaterEqual =>
    .ok (.bool (compareValues a b == some .gt || compareValues a b == some .eq))
  | .equal => .ok (.bool (compareValues a b == some .eq))
  | .notEqual => .ok (.bool (compareValues a b != some .eq))
  | .strictEqual => .ok (.bool (strictEqual a b))
  | .strictNotEqual => .ok (.bool !strictEqual a b)
  | .logicalAnd => .ok (.bool (a.toBool && b.toBool))
  | .logicalOr => .ok (.bool (a.toBool || b.toBool))
  | _ => .error (.notEvaluable o)

/-- Takes the arguments of a call off the stack, up to their mark. Arguments without a value do not
count. -/
def takeArgs {σ : Type} (scope : Scope σ) (s : σ) :
    List ExprValue → List Slot → List ExprValue × List Slot
  | found, [] => (found, [])
  | found, .args :: rest => (found, rest)
  | found, slot :: rest =>
    match slot.read scope s with
    | some v => takeArgs scope s (v :: found) rest
    | none => takeArgs scope s found rest

def popValue {σ : Type} (scope : Scope σ) (s : σ) : List Slot → Option ExprValue × List Slot
  | [] => (none, [])
  | slot :: rest => (slot.read scope s, rest)

/-- The name an assignment can bind: a local variable that is still a name. -/
def targetName : List Slot → Option String
  | .var name :: _ => name.localName
  | _ => none

inductive StepResult (σ : Type) where
  | next (stack : List Slot)
  | stop (stack : List Slot) (s : σ)

def reduceToken {σ : Type} (scope : Scope σ) (limit : Nat) (s : σ) (stack : List Slot) :
    Token → StepResult σ
  | .number x => .next (.value (.ofDouble x) :: stack)
  | .string t => .next (.value (.string t) :: stack)
  | .bool b => .next (.value (.bool b) :: stack)
  | .null => .next (.value .null :: stack)
  | .var name => .next (.var name :: stack)
  | .args => .next (.args :: stack)
  | .call f =>
    let (args, rest) := takeArgs scope s [] stack
    match f.apply args with
    | some v => .next (.value v :: rest)
    | none => .stop rest (scope.report s (ReduceError.call f).message)
  | .op .assign =>
    let (value, rest) := popValue scope s stack
    match targetName rest, value with
    | some name, some v => .stop (rest.drop 1) (scope.assign s name v)
    | _, _ => .stop (rest.drop 1) (scope.report s (ReduceError.operands .assign).message)
  | .op o =>
    if o.isUnary then
      match stack with
      | [] => .next []
      | top :: rest =>
        match top.read scope s with
        | some v => .next (.value (unary o v) :: rest)
        | none => .next (top :: rest)
    else
      let (b, afterB) := popValue scope s stack
      let (a, rest) := popValue scope s afterB
      match a, b with
      | some a, some b =>
        match binary limit o a b with
        | .ok v => .next (.value v :: rest)
        | .error e => .stop rest (scope.report s e.message)
      | _, _ => .stop rest (scope.report s (ReduceError.operands o).message)

def reduceTokens {σ : Type} (scope : Scope σ) (limit : Nat) (s : σ) (stack : List Slot) :
    List Token → List Slot × σ
  | [] => (stack, s)
  | token :: rest =>
    match reduceToken scope limit s stack token with
    | .next stack => reduceTokens scope limit s stack rest
    | .stop stack s => (stack, s)

def reduceStatement {σ : Type} (scope : Scope σ) (limit : Nat) (s : σ) (statement : List Token) :
    Option ExprValue × σ :=
  match reduceTokens scope limit s [] statement with
  | ([], s) => (none, s)
  | (top :: _, s) =>
    match top.read scope s with
    | some v => (some v, s)
    | none => (none, scope.report s ReduceError.noValue.message)

def reduceAll {σ : Type} (scope : Scope σ) (limit : Nat) :
    Option ExprValue → σ → List (List Token) → Option ExprValue × σ
  | result, s, [] => (result, s)
  | _, s, statement :: rest =>
    let (value, s) := reduceStatement scope limit s statement
    reduceAll scope limit value s rest

end JsonTemplate.Expr

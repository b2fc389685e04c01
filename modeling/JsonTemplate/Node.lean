import JsonTemplate.Json.Value
import JsonTemplate.Text.CharClass
import JsonTemplate.Variable.Name

namespace JsonTemplate

open JsonTemplate.Json JsonTemplate.Number JsonTemplate.Text

inductive Node where
  | missing
  | value (v : Value)
  | nonFinite (x : Quantity)

instance : Inhabited Node := ⟨.missing⟩

namespace Node

def text (s : String) : Node := .value (.string s)

def bool (b : Bool) : Node := .value (.bool b)

/-- The node of a computed double. Integral doubles below 2^53 become integers, so that they print
without a fraction. -/
def ofDouble (x : Float) : Node :=
  match Double.parts x with
  | .finite s m e =>
    let n := Double.truncParts s m e
    let integral : Bool := 0 ≤ e || m % Nat.pow 2 (-e).toNat == 0
    if integral && n.natAbs < 0x20000000000000 then .value (.number (.int n))
    else .value (.number (.double x))
  | _ => .nonFinite (.ofDouble x)

def ofQuantity : Quantity → Node
  | .undefined negative => .nonFinite (.undefined negative)
  | .defined x => ofDouble x

def value? : Node → Option Value
  | value v => some v
  | _ => none

def isMissing : Node → Bool
  | missing => true
  | _ => false

def isNull : Node → Bool
  | value .null => true
  | _ => false

def isNumber : Node → Bool
  | value (.number _) => true
  | nonFinite _ => true
  | _ => false

def isArray : Node → Bool
  | value (.array _) => true
  | _ => false

def isObject : Node → Bool
  | value (.object _) => true
  | _ => false

def asString? : Node → Option String
  | value (.string s) => some s
  | _ => none

def size : Node → Nat
  | value (.array items) => items.length
  | value (.object members) => members.length
  | _ => 0

def truthyDouble (x : Float) : Bool := x == x && x != 0

def isTruthy : Node → Bool
  | missing => false
  | nonFinite x => truthyDouble x.toDouble
  | value .null => false
  | value (.bool b) => b
  | value (.number n) => truthyDouble n.toDouble
  | value (.string s) => s ≠ ""
  | value (.array items) => !items.isEmpty
  | value (.object members) => !members.isEmpty

def asText : Node → String
  | missing => ""
  | nonFinite x => formatNumber x.toDouble
  | value v => v.scalarText

/-- The numeric reading: texts are read as numbers, and what has no reading is zero. -/
def asQuantity : Node → Quantity
  | nonFinite x => x
  | value (.number n) => .ofDouble n.toDouble
  | value (.bool b) => .defined (if b then 1 else 0)
  | value (.string s) => (readQuantity? (trim isUnicodeSpace s.toList)).getD (.defined 0)
  | _ => .defined 0

def asDouble (node : Node) : Float := node.asQuantity.toDouble

def asInt64 : Node → Int
  | value (.number n) => n.toInt64
  | node => Double.toInt64 node.asDouble

def child? : Value → Segment → Option Value
  | .object members, .key name => Value.lookup name members
  | .array items, .index i => items[i]?
  | _, _ => none

def step : Node → Segment → Node
  | value v, segment =>
    match child? v segment with
    | some c => value c
    | none => missing
  | _, _ => missing

def follow (node : Node) (path : List Segment) : Node := path.foldl step node

def toValue : Node → Value
  | value v => v
  | _ => .null

/-- What a variable tag prints: the items of an array with commas, nothing for null. -/
def emit : Node → String
  | missing => ""
  | nonFinite x => formatNumber x.toDouble
  | value .null => ""
  | value (.array items) => ",".intercalate (items.map Value.scalarText)
  | value v => v.scalarText

end Node

end JsonTemplate

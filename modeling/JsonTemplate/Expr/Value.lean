import JsonTemplate.Node

namespace JsonTemplate.Expr

open JsonTemplate.Number JsonTemplate.Text

inductive DecimalError where
  | exponentDigit
  | duplicatePoint
  | pointInExponent
  deriving Repr, DecidableEq

def DecimalError.message : DecimalError → String
  | exponentDigit => "Expected a digit after exponent in decimal number"
  | duplicatePoint => "Duplicate decimal point in number"
  | pointInExponent => "Unexpected decimal point in exponent"

/-- What a decimal number has shown so far: a point, an exponent mark, whether a digit must still
follow the mark, and the sign of the exponent. -/
structure DecimalState where
  point : Bool
  mark : Bool
  digitDue : Bool
  sign : Bool
  deriving Repr, DecidableEq

def DecimalState.initial : DecimalState := ⟨false, false, false, false⟩

def scanDecimal (s : DecimalState) : List Char → Except DecimalError (List Char × List Char)
  | [] => if s.digitDue then .error .exponentDigit else .ok ([], [])
  | c :: rest =>
    let stop : Except DecimalError (List Char × List Char) :=
      if s.digitDue then .error .exponentDigit else .ok ([], c :: rest)
    let go (next : DecimalState) : Except DecimalError (List Char × List Char) :=
      (scanDecimal next rest).map fun (taken, left) => (c :: taken, left)
    if c = '.' then
      if s.point then .error .duplicatePoint
      else if s.mark then .error .pointInExponent
      else go { s with point := true }
    else if c = 'e' ∨ c = 'E' then
      if s.mark then stop else go { s with mark := true, digitDue := true }
    else if c = '-' ∨ c = '+' then
      if s.digitDue ∧ s.mark ∧ ¬ s.sign then go { s with sign := true } else stop
    else if c.isDigit then go { s with digitDue := false }
    else stop

def hexFrom (x : Float) (digits : List Char) : Float :=
  digits.foldl (fun x c => x * 16 + Double.ofInt ((hexDigitValue? c).getD 0)) x

def hexValue (digits : List Char) : Float := if digits.isEmpty then Double.nan else hexFrom 0 digits

/-- Reads a text as a number: an optional sign, then a decimal or `0x` number that starts with a
digit. The empty text is zero; anything else is not a number. -/
def stringToNumber (text : List Char) : Float :=
  match text with
  | [] => 0
  | _ =>
    let (negative, body) := splitSign text
    let sign : Float := if negative then -1 else 1
    match body with
    | [] => Double.nan
    | c :: rest =>
      if c = '0' ∧ (rest.head? = some 'x' ∨ rest.head? = some 'X') then
        let digits := rest.drop 1
        if digits.all isHexDigit then sign * hexValue digits else Double.nan
      else if c.isDigit then
        match scanDecimal .initial body with
        | .ok (taken, []) =>
          match readDecimal? taken with
          | some x => sign * x
          | none => Double.nan
        | _ => Double.nan
      else Double.nan

end JsonTemplate.Expr

namespace JsonTemplate

open JsonTemplate.Number

inductive ExprValue where
  | bool (b : Bool)
  | number (x : Quantity)
  | string (s : String)
  | null

namespace ExprValue

def ofDouble (x : Float) : ExprValue := number (.ofDouble x)

/-- The reading as a number: null is zero and truth one. -/
def toQuantity : ExprValue → Quantity
  | number x => x
  | string s => .ofDouble (Expr.stringToNumber s.toList)
  | bool b => .defined (if b then 1 else 0)
  | null => .defined 0

def toNumber (v : ExprValue) : Float := v.toQuantity.toDouble

def toInt (v : ExprValue) : Int := Double.toInt32 v.toNumber

def toBool : ExprValue → Bool
  | bool b => b
  | number x => Node.truthyDouble x.toDouble
  | string s => s ≠ ""
  | null => false

def toText : ExprValue → String
  | bool b => if b then "true" else "false"
  | number x => formatNumber x.toDouble
  | string s => s
  | null => "null"

def isString : ExprValue → Bool
  | string _ => true
  | _ => false

def sameKind : ExprValue → ExprValue → Bool
  | bool _, bool _ => true
  | number _, number _ => true
  | string _, string _ => true
  | null, null => true
  | _, _ => false

def toNode : ExprValue → Node
  | bool b => .bool b
  | number x => .ofQuantity x
  | string s => .text s
  | null => .value .null

/-- The value of a node; containers have none, and a missing node is null. -/
def ofNode : Node → Option ExprValue
  | .missing => some null
  | .nonFinite x => some (number x)
  | .value .null => some null
  | .value (.bool b) => some (bool b)
  | .value (.number n) => some (ofDouble n.toDouble)
  | .value (.string s) => some (string s)
  | .value (.array _) => none
  | .value (.object _) => none

end ExprValue

end JsonTemplate

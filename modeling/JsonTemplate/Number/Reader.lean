import JsonTemplate.Number.Quantity
import JsonTemplate.Text.Digit

namespace JsonTemplate.Number

open JsonTemplate.Text

def splitSign : List Char → Bool × List Char
  | '-' :: rest => (true, rest)
  | '+' :: rest => (false, rest)
  | text => (false, text)

def withSign (negative : Bool) (n : Nat) : Int := if negative then -(n : Int) else n

/-- Reads an exponent mark and its digits off the front of a text. The outcome is none if the mark
has no digits after it. -/
def readExponent? : List Char → Option (Int × List Char)
  | c :: rest =>
    if c = 'e' ∨ c = 'E' then
      let (negative, body) := splitSign rest
      let digits := body.takeWhile Char.isDigit
      if digits.isEmpty then none
      else some (withSign negative (digitsValue digits), body.dropWhile Char.isDigit)
    else some (0, c :: rest)
  | [] => some (0, [])

/-- Reads an unsigned decimal text: digits with at most one point among them, at least one digit,
and an optional exponent. -/
def readMagnitude? (text : List Char) : Option (Nat × Int) :=
  let whole := text.takeWhile Char.isDigit
  let afterWhole := text.dropWhile Char.isDigit
  let (fraction, afterFraction) :=
    match afterWhole with
    | '.' :: rest => (rest.takeWhile Char.isDigit, rest.dropWhile Char.isDigit)
    | rest => ([], rest)
  if whole.isEmpty && fraction.isEmpty then none
  else
    match readExponent? afterFraction with
    | some (e, []) => some (digitsValue (whole ++ fraction), e - fraction.length)
    | _ => none

def readDecimal? (text : List Char) : Option Float :=
  (readMagnitude? text).map fun (c, e) => Double.ofDecimal false c e

def readQuantity? (text : List Char) : Option Quantity :=
  let (negative, body) := splitSign text
  let word := String.ofList (body.map Char.toLower)
  if word = "inf" ∨ word = "infinity" then
    some (.defined (Double.ofMagnitude negative Double.infinityBits))
  else if word = "nan" then some (.undefined negative)
  else (readMagnitude? body).map fun (c, e) => .defined (Double.ofDecimal negative c e)

def readInt? (least greatest : Int) (text : List Char) : Option Int :=
  let (negative, digits) := splitSign text
  if digits.isEmpty || !digits.all Char.isDigit then none
  else
    let n := withSign negative (digitsValue digits)
    if least ≤ n ∧ n ≤ greatest then some n else none

def readInt64? (text : List Char) : Option Int :=
  readInt? Double.leastInt64 Double.greatestInt64 text

end JsonTemplate.Number

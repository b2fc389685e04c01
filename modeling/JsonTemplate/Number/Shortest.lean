import JsonTemplate.Number.Double

namespace JsonTemplate.Number

structure Decimal where
  coefficient : Nat
  scale : Int
  deriving Repr, DecidableEq

inductive Tie where
  | up
  | even
  deriving Repr, DecidableEq

namespace Decimal

def digits (d : Decimal) : List Char := Nat.toDigits 10 d.coefficient

def leading (d : Decimal) : Int := d.digits.length - 1 + d.scale

def toDouble (d : Decimal) : Float := Double.ofDecimal false d.coefficient d.scale

def stripZeros : Nat → Decimal → Decimal
  | 0, d => d
  | fuel + 1, d =>
    if d.coefficient ≠ 0 ∧ d.coefficient % 10 = 0 then
      stripZeros fuel ⟨d.coefficient / 10, d.scale + 1⟩
    else d

/-- The number of digits before the point of `num / den`; zero or less if the number is below one,
and then the zeros after the point, negated. -/
def position (num den : Nat) : Int :=
  if den ≤ num then (Nat.toDigits 10 (num / den)).length
  else
    let places := (Nat.toDigits 10 (den / num)).length
    if num * Nat.pow 10 (places - 1) = den then 2 - (places : Int) else 1 - (places : Int)

/-- The neighbours of `num / den` among the multiples of `10 ^ scale`, and on which side of their
middle the number lies. -/
def neighbours (num den : Nat) (scale : Int) : Nat × Ordering :=
  let n := if 0 ≤ scale then num else num * Nat.pow 10 (-scale).toNat
  let d := if 0 ≤ scale then den * Nat.pow 10 scale.toNat else den
  (n / d, compare (2 * (n % d)) d)

/-- The better of two neighbours that both read back. -/
def prefer (tie : Tie) (low : Nat) : Ordering → Nat
  | .lt => low
  | .gt => low + 1
  | .eq =>
    match tie with
    | .up => low + 1
    | .even => if low % 2 = 0 then low else low + 1

def onGrid (tie : Tie) (x : Float) (num den : Nat) (scale : Int) : Option Decimal :=
  let (low, side) := neighbours num den scale
  let reads (c : Nat) : Bool := c ≠ 0 && (toDouble ⟨c, scale⟩).toBits == x.toBits
  match reads low, reads (low + 1) with
  | true, true => some ⟨prefer tie low side, scale⟩
  | true, false => some ⟨low, scale⟩
  | false, true => some ⟨low + 1, scale⟩
  | false, false => none

def exact (mantissa : Nat) (exponent : Int) : Decimal :=
  if 0 ≤ exponent then ⟨mantissa * Nat.pow 2 exponent.toNat, 0⟩
  else ⟨mantissa * Nat.pow 5 (-exponent).toNat, exponent⟩

/-- The shortest decimal for the positive double `x = mantissa · 2 ^ exponent`. Seventeen digits
always suffice to read back. -/
def shortest (tie : Tie) (mantissa : Nat) (exponent : Int) : Decimal :=
  let x := Double.ofBinary false mantissa exponent
  let num := if 0 ≤ exponent then mantissa * Nat.pow 2 exponent.toNat else mantissa
  let den := if 0 ≤ exponent then 1 else Nat.pow 2 (-exponent).toNat
  let top := position num den
  let found := (List.range 17).findSome? fun k : Nat => onGrid tie x num den (top - (k + 1))
  let d := found.getD (exact mantissa exponent)
  stripZeros d.digits.length d

end Decimal

end JsonTemplate.Number

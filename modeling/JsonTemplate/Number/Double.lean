
namespace JsonTemplate.Number

namespace Double

/-- A double as an exact number: `finite s m e` is `± m · 2 ^ e`. -/
inductive Parts where
  | nan
  | infinite (negative : Bool)
  | finite (negative : Bool) (mantissa : Nat) (exponent : Int)
  deriving Repr, DecidableEq

def leastExponent : Int := -1074

def infinityBits : Nat := 2047 * 0x10000000000000

def parts (x : Float) : Parts :=
  let bits := x.toBits.toNat
  let negative : Bool := 0x8000000000000000 ≤ bits
  let biased : Nat := bits / 0x10000000000000 % 2048
  let fraction := bits % 0x10000000000000
  if biased = 2047 then if fraction = 0 then .infinite negative else .nan
  else if biased = 0 then .finite negative fraction leastExponent
  else .finite negative (0x10000000000000 + fraction) ((biased : Int) + leastExponent - 1)

def ofMagnitude (negative : Bool) (bits : Nat) : Float :=
  Float.ofBits (UInt64.ofNat (if negative then bits + 0x8000000000000000 else bits))

def roundHalfEven (num den : Nat) : Nat :=
  let q := num / den
  let r := num % den
  if 2 * r < den then q
  else if den < 2 * r then q + 1
  else if q % 2 = 0 then q else q + 1

/-- The magnitude bits of the double nearest to `num / den`, ties to the even mantissa. The bits of
a double with mantissa `m` and exponent `e` are `(e + 1074) · 2 ^ 52 + m`, also for subnormals and
for a mantissa that was rounded up to `2 ^ 53`. -/
def nearestBits (num den : Nat) : Nat :=
  if num = 0 then 0
  else
    let guess : Int := num.log2 - den.log2
    let reaches : Bool :=
      if 0 ≤ guess then den * Nat.pow 2 guess.toNat ≤ num else den ≤ num * Nat.pow 2 (-guess).toNat
    let top : Int := if reaches then guess else guess - 1
    let exponent := max (top - 52) leastExponent
    let mantissa :=
      if 0 ≤ exponent then roundHalfEven num (den * Nat.pow 2 exponent.toNat)
      else roundHalfEven (num * Nat.pow 2 (-exponent).toNat) den
    min ((exponent - leastExponent).toNat * 0x10000000000000 + mantissa) infinityBits

def ofRatio (negative : Bool) (num den : Nat) : Float :=
  ofMagnitude negative (nearestBits num den)

def ofInt (n : Int) : Float := ofRatio (n < 0) n.natAbs 1

def ofBinary (negative : Bool) (mantissa : Nat) (exponent : Int) : Float :=
  if 0 ≤ exponent then ofRatio negative (mantissa * Nat.pow 2 exponent.toNat) 1
  else ofRatio negative mantissa (Nat.pow 2 (-exponent).toNat)

/-- The double nearest to `± coefficient · 10 ^ exponent`. Exponents far outside the range of
doubles are decided without computing the power. -/
def ofDecimal (negative : Bool) (coefficient : Nat) (exponent : Int) : Float :=
  if coefficient = 0 then ofMagnitude negative 0
  else if 400 < exponent then ofMagnitude negative infinityBits
  else if 0 ≤ exponent then ofRatio negative (coefficient * Nat.pow 10 exponent.toNat) 1
  else if exponent + coefficient.log2 < -400 then ofMagnitude negative 0
  else ofRatio negative coefficient (Nat.pow 10 (-exponent).toNat)

def nan : Float := Float.ofBits 0x7ff8000000000000
def infinity : Float := ofMagnitude false infinityBits
def negativeZero : Float := ofMagnitude true 0

def truncParts (negative : Bool) (mantissa : Nat) (exponent : Int) : Int :=
  let magnitude : Nat :=
    if 0 ≤ exponent then mantissa * Nat.pow 2 exponent.toNat
    else mantissa / Nat.pow 2 (-exponent).toNat
  if negative then -(magnitude : Int) else magnitude

def trunc? (x : Float) : Option Int :=
  match parts x with
  | .finite s m e => some (truncParts s m e)
  | _ => none

/-- Wraps the integer part into 32 bits with sign; a double that is not finite gives zero. -/
def toInt32 (x : Float) : Int :=
  match trunc? x with
  | some n => n.bmod 0x100000000
  | none => 0

def leastInt64 : Int := -0x8000000000000000
def greatestInt64 : Int := 0x7fffffffffffffff

def saturate (n : Int) : Int := max leastInt64 (min greatestInt64 n)

def toInt64 (x : Float) : Int :=
  match parts x with
  | .nan => 0
  | .infinite negative => if negative then leastInt64 else greatestInt64
  | .finite s m e => saturate (truncParts s m e)

/-- The remainder of the division that truncates toward zero. It is exact and takes the sign of the
dividend. -/
def remainder (x y : Float) : Float :=
  match parts x, parts y with
  | .finite s m e, .finite _ n f =>
    if n = 0 then nan
    else
      let low := min e f
      let a := m * Nat.pow 2 (e - low).toNat
      let b := n * Nat.pow 2 (f - low).toNat
      ofBinary s (a % b) low
  | .finite _ _ _, .infinite _ => x
  | _, _ => nan

def isOdd (x : Float) : Bool :=
  match parts x with
  | .finite _ m e =>
    let unit := Nat.pow 2 (-e).toNat
    e ≤ 0 && m % unit == 0 && m / unit % 2 == 1
  | _ => false

def isNegative (x : Float) : Bool := 0x8000000000000000 ≤ x.toBits.toNat

def isFinite (x : Float) : Bool :=
  match parts x with
  | .finite _ _ _ => true
  | _ => false

/-- The position of a double in the order of all bit patterns: from the largest negative magnitude
over the two zeros to the largest positive one. -/
def orderKey (x : Float) : Int :=
  let bits := x.toBits.toNat
  if 0x8000000000000000 ≤ bits then -((bits - 0x8000000000000000 : Nat) : Int) - 1 else bits

end Double

end JsonTemplate.Number

import JsonTemplate.Number.Double

namespace JsonTemplate.Number

/-- A double, or the undefined value with its sign. -/
inductive Quantity where
  | undefined (negative : Bool)
  | defined (x : Float)

namespace Quantity

def ofDouble (x : Float) : Quantity :=
  match Double.parts x with
  | .nan => undefined false
  | _ => defined x

/-- The outcome of an operation on doubles. Where it has none, as in zero over zero, the undefined
value comes out negative. -/
def outcome (x : Float) : Quantity :=
  match Double.parts x with
  | .nan => undefined true
  | _ => defined x

def toDouble : Quantity → Float
  | undefined _ => Double.nan
  | defined x => x

/-- An operation that passes an undefined operand on, the first one if both are. -/
def combine (f : Float → Float → Float) : Quantity → Quantity → Quantity
  | undefined s, _ => undefined s
  | defined _, undefined s => undefined s
  | defined x, defined y => outcome (f x y)

instance : Add Quantity := ⟨combine (· + ·)⟩
instance : Sub Quantity := ⟨combine (· - ·)⟩
instance : Mul Quantity := ⟨combine (· * ·)⟩
instance : Div Quantity := ⟨combine (· / ·)⟩
instance : Mod Quantity := ⟨combine Double.remainder⟩

def negate : Quantity → Quantity
  | undefined s => undefined !s
  | defined x => defined (-x)

instance : Neg Quantity := ⟨negate⟩

def abs : Quantity → Quantity
  | undefined _ => undefined false
  | defined x => defined x.abs

/-- Powers. Anything to the power of zero is one, and so is one to any power. An undefined base
keeps its sign, but for odd exponents it comes out positive. -/
def power : Quantity → Quantity → Quantity
  | undefined s, defined y => if y == 0 then defined 1 else undefined (s && !Double.isOdd y)
  | defined x, undefined s => if x == 1 then defined 1 else undefined s
  | x, y => combine Float.pow x y

/-- The position in the total order: the undefined values lie beyond the infinities. -/
def orderKey : Quantity → Int
  | undefined false => 0x8000000000000000
  | undefined true => -0x8000000000000000
  | defined x => Double.orderKey x

def totalCompare (x y : Quantity) : Ordering := compare x.orderKey y.orderKey

def same (x y : Quantity) : Bool := x.orderKey == y.orderKey

end Quantity

end JsonTemplate.Number

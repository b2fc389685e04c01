import JsonTemplate.Number.Format
import JsonTemplate.Number.Reader

namespace JsonTemplate.Json

open JsonTemplate.Number

/-- A JSON number. The integers are those of 64 bits, signed or not. -/
inductive Num where
  | int (n : Int)
  | double (x : Float)

inductive Value where
  | null
  | bool (b : Bool)
  | number (n : Num)
  | string (s : String)
  | array (items : List Value)
  | object (members : List (String × Value))

instance : Inhabited Value := ⟨.null⟩

namespace Num

/-- Integers by value, doubles by IEEE comparison, and never one against the other. -/
def same : Num → Num → Bool
  | int m, int n => m == n
  | double x, double y => x == y
  | _, _ => false

def toDouble : Num → Float
  | int n => Double.ofInt n
  | double x => x

def toInt64 : Num → Int
  | int n => Double.saturate n
  | double x => Double.toInt64 x

def text : Num → String
  | int n => toString n
  | double x => formatNumber x

/-- What JSON text can hold: the integers of 64 bits, signed or not, and the finite doubles. -/
def IsJson : Num → Prop
  | int n => Double.leastInt64 ≤ n ∧ n < 0x10000000000000000
  | double x => Double.isFinite x = true

instance : DecidablePred IsJson
  | int n => inferInstanceAs (Decidable (_ ∧ n < _))
  | double x => inferInstanceAs (Decidable (Double.isFinite x = true))

end Num

namespace Value

def text (s : String) : Value := .string s
def int (n : Int) : Value := .number (.int n)
def double (x : Float) : Value := .number (.double x)

def lookup (name : String) : List (String × Value) → Option Value
  | [] => none
  | (key, value) :: rest => if key = name then some value else lookup name rest

def insert (name : String) (value : Value) : List (String × Value) → List (String × Value)
  | [] => [(name, value)]
  | (key, old) :: rest =>
    if key = name then (key, value) :: rest else (key, old) :: insert name value rest

/-- An object from its members; of members with one name the last value counts, in the first place.
-/
def ofMembers (members : List (String × Value)) : List (String × Value) :=
  members.foldl (fun built (name, value) => insert name value built) []

mutual

/-- Equality of values. The order of the members of an object does not matter. -/
def same : Value → Value → Bool
  | null, null => true
  | bool a, bool b => a == b
  | number m, number n => m.same n
  | string s, string t => s == t
  | array xs, array ys => sameItems xs ys
  | object ms, object ns => ms.length == ns.length && sameMembers ms ns
  | _, _ => false

def sameItems : List Value → List Value → Bool
  | [], [] => true
  | x :: xs, y :: ys => x.same y && sameItems xs ys
  | _, _ => false

def sameMembers : List (String × Value) → List (String × Value) → Bool
  | [], _ => true
  | (name, value) :: rest, others =>
    (match lookup name others with
      | some other => value.same other
      | none => false)
      && sameMembers rest others

end

def scalarText : Value → String
  | null => "null"
  | bool b => if b then "true" else "false"
  | number n => n.text
  | string s => s
  | array _ => ""
  | object _ => ""

end Value

end JsonTemplate.Json

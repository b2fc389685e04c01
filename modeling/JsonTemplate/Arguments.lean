import JsonTemplate.Text.Pieces

namespace JsonTemplate

open JsonTemplate.Text

structure Arguments where
  delimiter : Char
  values : List String
  /-- Whether the formatter or predicate that takes them has agreed to them. Only then are options
  read from them. -/
  accepted : Bool
  deriving Repr, DecidableEq, Inhabited

namespace Arguments

def none : Arguments := ⟨' ', [], false⟩

def accept (a : Arguments) : Arguments := { a with accepted := true }

def parse (raw : List Char) : Arguments :=
  match raw with
  | [] => none
  | delimiter :: rest =>
    ⟨delimiter, ((pieces delimiter rest).filter (!·.isEmpty)).map String.ofList, false⟩

def first (a : Arguments) : String := a.values.headD ""

def count (a : Arguments) : Nat := a.values.length

def isEmpty (a : Arguments) : Bool := a.values.isEmpty

def get? (a : Arguments) (i : Nat) : Option String := a.values[i]?

def join (a : Arguments) : List Char := a.values.flatMap fun v => a.delimiter :: v.toList

inductive CountError where
  | notExactly (expected : Nat)
  | tooFew (least : Nat)
  | tooMany (least most : Nat)
  deriving Repr, DecidableEq

def CountError.message : CountError → String
  | notExactly n => s!"Wrong number of args, exactly {n} expected"
  | tooFew n => s!"Not enough args. At least {n} expected"
  | tooMany least most => s!"Too many args. Takes between {least} and {most}"

def exactly (a : Arguments) (n : Nat) : Except CountError Unit :=
  if a.count = n then .ok () else .error (.notExactly n)

def atLeast (a : Arguments) (n : Nat) : Except CountError Unit :=
  if a.count < n then .error (.tooFew n) else .ok ()

def between (a : Arguments) (least most : Nat) : Except CountError Unit :=
  if a.count < least then .error (.tooFew least)
  else if most < a.count then .error (.tooMany least most)
  else .ok ()

def atMost (a : Arguments) (n : Nat) : Except CountError Unit := a.between 0 n

end Arguments

end JsonTemplate

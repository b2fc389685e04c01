import JsonTemplate.Number.Reader
import JsonTemplate.Text.Pieces

namespace JsonTemplate

open JsonTemplate.Number JsonTemplate.Text

inductive Segment where
  | key (name : String)
  | index (i : Nat)
  deriving Repr, DecidableEq

namespace Segment

/-- A piece of digits alone that fits 31 bits is an index, any other piece a key. -/
def parse (piece : List Char) : Segment :=
  if piece.all Char.isDigit ∧ digitsValue piece < 0x80000000 then .index (digitsValue piece)
  else .key (String.ofList piece)

def text : Segment → String
  | key name => name
  | index i => toString i

end Segment

inductive VarName where
  | current
  | path (segments : List Segment)
  deriving Repr, DecidableEq

namespace VarName

/-- Reads a name. Empty pieces between points do not count. -/
def parse (raw : List Char) : VarName :=
  if raw = ['@'] then current
  else path (((pieces '.' raw).filter (!·.isEmpty)).map Segment.parse)

def segments : VarName → Option (List Segment)
  | current => none
  | path segments => some segments

def text : VarName → String
  | current => "@"
  | path segments => String.ofList (joinWith ['.'] (segments.map fun s => s.text.toList))

/-- The name of a local variable: one key that starts with `@`. -/
def localName : VarName → Option String
  | path [.key k] => if k.toList.head? = some '@' then some k else none
  | _ => none

end VarName

end JsonTemplate


namespace JsonTemplate.Text

def byteLength (text : List Char) : Nat := text.foldr (fun c size => c.utf8Size + size) 0

def dropBytes? : Nat → List Char → Option (List Char)
  | 0, text => some text
  | _ + 1, [] => none
  | n + 1, c :: rest => if c.utf8Size ≤ n + 1 then dropBytes? (n + 1 - c.utf8Size) rest else none

def takeBytes : Nat → List Char → List Char
  | _, [] => []
  | n, c :: rest => if c.utf8Size ≤ n then c :: takeBytes (n - c.utf8Size) rest else []

def isBoundary (text : List Char) (offset : Nat) : Bool := (dropBytes? offset text).isSome

/-- The characters between two byte offsets; none where one of them is inside a character. -/
def slice (text : List Char) (start stop : Nat) : List Char :=
  match dropBytes? start text with
  | some rest => takeBytes (stop - start) rest
  | none => []

structure Position where
  line : Nat
  column : Nat
  deriving Repr, DecidableEq

namespace Position

def start : Position := ⟨1, 1⟩

def nowhere : Position := ⟨0, 0⟩

def next (p : Position) (c : Char) : Position :=
  if c = '\n' then ⟨p.line + 1, 1⟩ else ⟨p.line, p.column + 1⟩

def after (p : Position) (text : List Char) : Position := text.foldl next p

def forward (p : Position) (columns : Nat) : Position := ⟨p.line, p.column + columns⟩

def before (p q : Position) : Bool := p.line < q.line || (p.line == q.line && p.column < q.column)

end Position

end JsonTemplate.Text

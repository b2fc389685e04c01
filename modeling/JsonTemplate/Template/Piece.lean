import JsonTemplate.Text.Offset

namespace JsonTemplate

open JsonTemplate.Text

/-- A piece of a source. `mark` is the place where the text before a tag would start, which is also
the place of a tag that turns out to be text. -/
inductive Piece where
  | text (place : Position) (content : List Char)
  | tag (place mark : Position) (content : List Char)
  | comment (place : Position) (content : List Char)
  | openComment (place mark : Position) (content : List Char)
  deriving Repr, DecidableEq

namespace Piece

/-- What has been read since the last piece: the text before a left brace, and the brace's place
with what follows it. Both texts have their last character first. -/
structure Pending where
  before : List Char
  brace : Option (Position × List Char)

def Pending.empty : Pending := ⟨[], none⟩

def Pending.backward (p : Pending) : List Char :=
  match p.brace with
  | none => p.before
  | some (_, inside) => inside ++ '{' :: p.before

def Pending.all (p : Pending) : List Char := p.backward.reverse

def Pending.push (p : Pending) (c : Char) : Pending :=
  match p.brace with
  | none => { p with before := c :: p.before }
  | some (place, inside) => { p with brace := some (place, c :: inside) }

def Pending.reopen (p : Pending) (place : Position) : Pending :=
  ⟨p.backward, some (place, [])⟩

def textPiece (mark : Position) (content : List Char) : List Piece :=
  if content.isEmpty then [] else [text mark content]

def Pending.pieces (p : Pending) (mark : Position) : List Piece :=
  match p.brace with
  | some (place, inside) => textPiece mark p.before.reverse ++ [tag place mark inside.reverse]
  | none => [text mark (p.before.reverse ++ ['}'])]

/-- Where the scan is: in text and tags, or in a comment whose characters are given last first. -/
inductive Mode where
  | outside (p : Pending)
  | inside (place : Position) (content : List Char)

/-- Cuts the rest of a source. `mark` is the place after the last piece, `here` that of the next
character. The outcome has the pieces and the place of the end. -/
def scan (mark here : Position) : Mode → List Char → List Piece × Position
  | .outside p, [] => (textPiece mark p.all, here)
  | .inside place content, [] => ([openComment place mark content.reverse], here)
  | .outside p, '{' :: '#' :: '#' :: rest =>
    let (pieces, stop) := scan mark (here.forward 3) (.inside here []) rest
    (textPiece mark p.all ++ pieces, stop)
  | .inside place content, '#' :: '#' :: '}' :: rest =>
    let after := here.forward 3
    let (pieces, stop) := scan after after (.outside .empty) rest
    (comment place content.reverse :: pieces, stop)
  | .outside p, c :: rest =>
    if c = '{' then scan mark (here.next c) (.outside (p.reopen here)) rest
    else if c = '}' then
      let after := here.next c
      let (pieces, stop) := scan after after (.outside .empty) rest
      (p.pieces mark ++ pieces, stop)
    else scan mark (here.next c) (.outside (p.push c)) rest
  | .inside place content, c :: rest => scan mark (here.next c) (.inside place (c :: content)) rest

def ofSource (source : List Char) : List Piece × Position :=
  scan .start .start (.outside .empty) source

end Piece

end JsonTemplate

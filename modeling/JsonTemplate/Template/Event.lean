import JsonTemplate.Template.Piece
import JsonTemplate.Template.Tag

namespace JsonTemplate

open JsonTemplate.Text

inductive Event where
  | emit (i : Instruction)
  | problem (d : Diagnostic)

namespace Event

def emitText (place : Position) (content : List Char) : Event :=
  emit ⟨place, .leaf (.text (String.ofList content))⟩

def emitComment (place : Position) (content : List Char) : Event :=
  emit ⟨place, .leaf (.comment (String.ofList content) true)⟩

def ofReading (place mark : Position) (content : List Char) (r : TagReading) : List Event :=
  r.problems.map problem
    ++ match r.reading with
      | .instruction op => [emit ⟨place, op⟩]
      | .dropped => []
      | .plain => [emitText mark (inBraces content)]
      | .asText => [emitText place (inBraces content)]

def ofPiece (rules : Tag.Rules) : Piece → List Event
  | .text place content => [emitText place content]
  | .comment place content => [emitComment place content]
  | .openComment place mark content =>
    [emitComment place content, problem (.compile .eofInComment mark)]
  | .tag place mark content => ofReading place mark content (Tag.read rules place content)

/-- All that comes up in a source; the end of the source comes last. -/
def ofSource (rules : Tag.Rules) (source : List Char) : List Event :=
  let (pieces, stop) := Piece.ofSource source
  pieces.flatMap (ofPiece rules) ++ [emit ⟨stop, .eof⟩]

def instructions (events : List Event) : List Instruction :=
  events.filterMap fun
    | emit i => some i
    | problem _ => none

def problems (events : List Event) : List Diagnostic :=
  events.filterMap fun
    | emit _ => none
    | problem d => some d

def upToProblem : List Event → List Instruction × Option Diagnostic
  | [] => ([], none)
  | problem d :: _ => ([], some d)
  | emit i :: rest =>
    let (before, d) := upToProblem rest
    (i :: before, d)

end Event

end JsonTemplate

import JsonTemplate.Diagnostic
import JsonTemplate.Template.Tree

namespace JsonTemplate

open JsonTemplate.Text

inductive OpenHead where
  | block (place : Position) (o : Opener)
  | repeated (place : Position) (var : VarName) (alternates : Alternates)
  | between (place start : Position) (var : VarName) (rounds : List Tree)
  | or (place : Position) (call : Option Call)
  | macroDef (place : Position) (name : String)

/-- An open block with its instructions so far, the last one first. -/
structure OpenBlock where
  head : OpenHead
  body : List Tree

structure Stack where
  blocks : List OpenBlock
  root : List Tree

namespace OpenHead

def instruction : OpenHead → Instruction
  | block place o => ⟨place, .opening o⟩
  | repeated place var _ => ⟨place, .repeated var⟩
  | between place _ _ _ => ⟨place, .alternates⟩
  | or place call => ⟨place, .or call⟩
  | macroDef place name => ⟨place, .macroStart name⟩

def description (h : OpenHead) : String :=
  let i := h.instruction
  String.ofList i.source
    ++ s!" started at line {i.place.line} char {i.place.column}"

end OpenHead

namespace Stack

def empty : Stack := ⟨[], []⟩

def add (t : Tree) (s : Stack) : Stack :=
  match s.blocks with
  | [] => { s with root := t :: s.root }
  | top :: rest => { s with blocks := { top with body := t :: top.body } :: rest }

def push (head : OpenHead) (s : Stack) : Stack := { s with blocks := ⟨head, []⟩ :: s.blocks }

def closePlace : Tail → Option Position
  | .closed place => some place
  | _ => none

def close (root : List Tree) : Tail → List OpenBlock → Stack
  | _, [] => ⟨[], root⟩
  | tail, ⟨.or place call, body⟩ :: rest => close root (.or place call body.reverse tail) rest
  | tail, ⟨.block place o, body⟩ :: rest =>
    add (.block place o body.reverse tail) ⟨rest, root⟩
  | tail, ⟨.repeated place var alternates, body⟩ :: rest =>
    add (.repeated place var body.reverse alternates tail) ⟨rest, root⟩
  | tail, ⟨.macroDef place name, body⟩ :: rest =>
    add (.macroDef place name body.reverse (closePlace tail)) ⟨rest, root⟩
  | tail, ⟨.between place start var rounds, body⟩ :: rest =>
    add (.repeated start var rounds.reverse (.between place body.reverse none) tail) ⟨rest, root⟩

def startBetween (place : Position) (s : Stack) : Stack :=
  match s.blocks with
  | ⟨.repeated start var _, rounds⟩ :: rest =>
    { s with blocks := ⟨.between place start var rounds, []⟩ :: rest }
  | _ => s

def endBetween (implied : Position) (s : Stack) : Stack :=
  match s.blocks with
  | ⟨.between place start var rounds, body⟩ :: rest =>
    { s with
      blocks := ⟨.repeated start var (.between place body.reverse (some implied)), rounds⟩ :: rest }
  | _ => s

/-- Closes all open blocks without a closing tag. Each step closes at least one, so their number
bounds the steps. -/
def collapse : Nat → Stack → Stack
  | 0, s => s
  | fuel + 1, s =>
    match s.blocks with
    | [] => s
    | _ => collapse fuel (close s.root .unclosed s.blocks)

def closeAll (s : Stack) : Stack := collapse s.blocks.length s

def objection (s : Stack) (i : Instruction) : Option Diagnostic :=
  let problem (fault : CompileFault) : Diagnostic :=
    (Diagnostic.compile fault i.place).withType i.typeName
  let refusedIn (h : OpenHead) : Diagnostic :=
    (problem .notAllowedInBlock).withData h.instruction.typeName
  match i.op, s.blocks with
  | .eof, [] => none
  | .eof, top :: _ => some ((problem .eofInBlock).withData top.head.description)
  | .close, [] => some (problem .mismatchedEnd)
  | .or _, [] => some ((problem .notAllowedAtRoot).withData "ROOT")
  | .or _, top :: _ =>
    match top.head with
    | .macroDef _ _ => some (refusedIn top.head)
    | .or _ none => some (problem .deadCodeBlock)
    | _ => none
  | .alternates, [] => some ((problem .notAllowedAtRoot).withData "ROOT")
  | .alternates, top :: _ =>
    match top.head with
    | .repeated _ _ _ => none
    | _ => some (refusedIn top.head)
  | _, _ => none

def take (s : Stack) (i : Instruction) : Stack :=
  match i.op with
  | .leaf l => s.add (.leaf i.place l)
  | .opening o => s.push (.block i.place o)
  | .repeated var => s.push (.repeated i.place var .none)
  | .alternates => s.startBetween i.place
  | .or call => (s.endBetween i.place).push (.or i.place call)
  | .macroStart name => s.push (.macroDef i.place name)
  | .close => close s.root (.closed i.place) s.blocks
  | .eof => s.closeAll

end Stack

structure Assembly where
  stack : Stack
  lenient : Bool
  problems : List Diagnostic
  count : Nat
  eof : Option Position

namespace Assembly

def start (lenient : Bool) : Assembly := ⟨.empty, lenient, [], 0, none⟩

def isComplete (a : Assembly) : Bool := a.eof.isSome

def take (a : Assembly) (i : Instruction) : Assembly :=
  { a with
    stack := a.stack.take i
    eof := match i.op with
      | .eof => some i.place
      | _ => a.eof }

def recover (a : Assembly) (i : Instruction) : Assembly :=
  match i.op with
  | .eof => a.take i
  | _ => a

/-- Takes in an instruction, or hands back why it is not allowed. After the end of the source
instructions are only counted. -/
def accept (a : Assembly) (i : Instruction) : Assembly × Option Diagnostic :=
  let counted := { a with count := a.count + 1 }
  if a.isComplete then (counted, none)
  else
    match a.stack.objection i with
    | none => (counted.take i, none)
    | some d =>
      if a.lenient then
        ({ counted.recover i with problems := a.problems ++ [d] }, none)
      else (counted, some d)

def finish (a : Assembly) : Template := ⟨a.stack.closeAll.root.reverse, a.eof⟩

/-- Takes in the events of a source up to the first problem that is handed back. -/
def feed (a : Assembly) : List Instruction → Assembly × Option Diagnostic
  | [] => (a, none)
  | i :: rest =>
    match a.accept i with
    | (next, none) => next.feed rest
    | (next, some d) => (next, some d)

end Assembly

end JsonTemplate

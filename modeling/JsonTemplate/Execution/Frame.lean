import JsonTemplate.Node
import JsonTemplate.Template.Tree

namespace JsonTemplate

abbrev Bindings (α : Type) := List (String × α)

namespace Bindings

variable {α : Type}

def get? (name : String) (b : Bindings α) : Option α := b.lookup name

def set (name : String) (value : α) (b : Bindings α) : Bindings α :=
  (name, value) :: b.filter (·.1 ≠ name)

end Bindings

structure Frame where
  node : Node
  vars : Bindings Node
  macros : Bindings (List Tree)
  /-- The round of a repeated section, counted from zero. -/
  index : Option Nat
  /-- Whether variables are looked up no further down the stack. -/
  isolated : Bool

instance : Inhabited Frame := ⟨⟨.missing, [], [], none, false⟩⟩

namespace Frame

def ofNode (node : Node) : Frame := ⟨node, [], [], none, false⟩

def var? (name : String) (f : Frame) : Option Node := f.vars.get? name

def setVar (name : String) (node : Node) (f : Frame) : Frame :=
  { f with vars := f.vars.set name node }

def clearVars (f : Frame) : Frame := { f with vars := [] }

def macro? (name : String) (f : Frame) : Option (List Tree) := f.macros.get? name

def setMacro (name : String) (body : List Tree) (f : Frame) : Frame :=
  { f with macros := f.macros.set name body }

def setIndex (index : Option Nat) (f : Frame) : Frame := { f with index }

def setIsolated (isolated : Bool) (f : Frame) : Frame := { f with isolated }

def indexNode (f : Frame) : Node :=
  match f.index with
  | some i => .ofDouble (Number.Double.ofInt (i + 1))
  | none => .missing

/-- A segment in this scope alone. A key that starts with `@` is a local variable, or the number of
the round; any other segment steps down from the node. -/
def resolve (f : Frame) (segment : Segment) : Node :=
  match segment with
  | .key name =>
    if name.toList.head? = some '@' then
      if name = "@index" then f.indexNode else (f.var? name).getD .missing
    else f.node.step segment
  | .index _ => f.node.step segment

end Frame

structure FrameStack where
  inner : List Frame
  root : Frame

namespace FrameStack

def ofRoot (root : Frame) : FrameStack := ⟨[], root⟩

def top (s : FrameStack) : Frame := s.inner.headD s.root

def toList (s : FrameStack) : List Frame := s.inner ++ [s.root]

def depth (s : FrameStack) : Nat := s.inner.length + 1

def push (f : Frame) (s : FrameStack) : FrameStack := { s with inner := f :: s.inner }

def popped? (s : FrameStack) : Option Frame := s.inner.head?

def pop (s : FrameStack) : FrameStack := { s with inner := s.inner.drop 1 }

def updateTop (change : Frame → Frame) (s : FrameStack) : FrameStack :=
  match s.inner with
  | [] => { s with root := change s.root }
  | f :: rest => { s with inner := change f :: rest }

def truncate (depth : Nat) (s : FrameStack) : FrameStack :=
  { s with inner := s.inner.drop (s.depth - depth) }

/-- A segment in the first frame that has it, from the innermost one down to an isolated one. -/
def lookup (segment : Segment) : List Frame → Node
  | [] => .missing
  | f :: rest =>
    let node := f.resolve segment
    if !node.isMissing then node
    else if f.isolated then .missing
    else lookup segment rest

def macro? (name : String) (s : FrameStack) : Option (List Tree) :=
  s.toList.findSome? (Frame.macro? name)

end FrameStack

end JsonTemplate

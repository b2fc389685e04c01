import JsonTemplate.Execution.Frame
import JsonTemplate.Execution.Limiter

namespace JsonTemplate

open JsonTemplate.Json JsonTemplate.Text

abbrev Partials := Bindings String

namespace Partials

def none : Partials := []

def ofJson : Value → Partials
  | .object members => members.filterMap fun
    | (name, .string source) => some (name, source)
    | _ => Option.none
  | _ => none

def add (name source : String) (p : Partials) : Partials := p.set name source

end Partials

structure RunOptions where
  /-- Problems are noted instead of ending the run. -/
  safe : Bool
  includes : Bool
  locale : String
  expr : ExprOptions
  partials : Partials
  injectables : List (String × Value)

namespace RunOptions

def defaultLocale : String := "en-US"

def strict : RunOptions := ⟨false, false, defaultLocale, .unlimited, .none, []⟩

end RunOptions

structure Context where
  options : RunOptions
  frames : FrameStack
  output : String
  problems : List Diagnostic
  place : Position
  limiter : Option Limiter
  compiled : Bindings (List Tree)
  compileCount : Nat
  active : List String
  logged : List Diagnostic

namespace Context

def start (options : RunOptions) (limiter : Option Limiter) (node : Node) : Context :=
  ⟨options, .ofRoot (.ofNode node), "", [], .nowhere, limiter, [], 0, [], []⟩

def node (ctx : Context) : Node := ctx.frames.top.node

def depth (ctx : Context) : Nat := ctx.frames.depth

def push (f : Frame) (ctx : Context) : Context := { ctx with frames := ctx.frames.push f }

def pop (ctx : Context) : Context := { ctx with frames := ctx.frames.pop }

def enter (node : Node) (ctx : Context) : Context := ctx.push (.ofNode node)

def updateTop (change : Frame → Frame) (ctx : Context) : Context :=
  { ctx with frames := ctx.frames.updateTop change }

def setVar (name : String) (node : Node) (ctx : Context) : Context :=
  ctx.updateTop (Frame.setVar name node)

def setMacro (name : String) (body : List Tree) (ctx : Context) : Context :=
  ctx.updateTop (Frame.setMacro name body)

def write (text : String) (ctx : Context) : Context := { ctx with output := ctx.output ++ text }

def note (d : Diagnostic) (ctx : Context) : Context := { ctx with problems := ctx.problems ++ [d] }

def problem (ctx : Context) (fault : RunFault) : Diagnostic := .run fault ctx.place

def injectable (ctx : Context) (name : String) : Node :=
  match Value.lookup name ctx.options.injectables with
  | some v => .value v
  | none => .missing

/-- Stands for a variable whose path leads through null. -/
def unresolvable (name : VarName) : Node := .text s!"[JSONT: Can't resolve '{name.text}'.]"

def walk (name : VarName) : Node → List Segment → Node
  | node, [] => node
  | node, segment :: rest =>
    if node.isMissing then .missing
    else if node.isNull then unresolvable name
    else walk name (node.step segment) rest

/-- The node of a variable. The first segment is looked up in the frames from the innermost one on;
the others lead down from there. -/
def resolve (ctx : Context) (name : VarName) : Node :=
  match name with
  | .path (first :: rest) => walk name (FrameStack.lookup first ctx.frames.toList) rest
  | _ => ctx.node

/-- The node of a section: its name is looked up in the innermost frame alone. -/
def resolveSection (ctx : Context) (name : VarName) : Node :=
  match name with
  | .path (first :: rest) => (ctx.frames.top.resolve first).follow rest
  | _ => ctx.node

end Context

end JsonTemplate

import JsonTemplate.Execution.Step
import JsonTemplate.Plugin.Catalog
import JsonTemplate.Template.Compile

namespace JsonTemplate

namespace Context

/-- Compiles a source for a run: a safe one takes what there is of a faulty template. -/
def compileSource (c : Catalog) (options : RunOptions) (source : String) :
    Except Diagnostic Compiled :=
  Compiled.compile c.vocabulary ⟨options.safe, false, options.expr⟩ source.toList

def noteFaulty (name : String) (problems : List Diagnostic) (ctx : Context) : Context :=
  if problems.isEmpty then ctx
  else ctx.note (((ctx.problem .compilePartialSyntax).withName name).withCauses problems)

/-- Finds a macro or a partial. The outcome is an error if the partial has one and the run is
strict. -/
def findPartial (c : Catalog) (name : String) (ctx : Context) :
    Except Diagnostic (Option (List Tree)) × Context :=
  match ctx.frames.macro? name with
  | some body => (.ok (some body), ctx)
  | none =>
    match ctx.compiled.get? name with
    | some body => (.ok (some body), ctx)
    | none =>
      match ctx.options.partials.get? name with
      | none => (.ok none, ctx)
      | some source =>
        let counted := { ctx with compileCount := ctx.compileCount + 1 }
        match compileSource c ctx.options source with
        | .error d => (.error d, counted)
        | .ok compiled =>
          let noted := counted.noteFaulty name compiled.problems
          let body := compiled.template.body
          (.ok (some body), { noted with compiled := noted.compiled.set name body })

def exitPartial (name : String) (ctx : Context) : Context :=
  { ctx with active := ctx.active.filter (· ≠ name) }

end Context

namespace Step

variable {α : Type}

def obtainPartial (c : Catalog) (missing faulty : RunFault) (name : String) :
    Step (Option (List Tree)) := do
  let found ← fun ctx =>
    let (found, ctx) := ctx.findPartial c name
    (.ok found, ctx)
  let problem ← read fun ctx => fun fault => (ctx.problem fault).withName name
  match found with
  | .ok (some body) => pure (some body)
  | .ok none =>
    refuse (problem missing)
    pure none
  | .error d => fail (.problem (((problem faulty).withData d.message).withCauses [d]))

def enterPartial (name : String) : Step Bool := fun ctx =>
  if ctx.active.contains name then
    match refuse ((ctx.problem .applyPartialRecursion).withName name) ctx with
    | (.ok (), ctx) => (.ok false, ctx)
    | (.error f, ctx) => (.error f, ctx)
  else (.ok true, { ctx with active := name :: ctx.active })

def asPartial (name : String) (action : Step α) : Step (Option α) := do
  if ← enterPartial name then
    let a ← thenAlways action (Context.exitPartial name)
    pure (some a)
  else pure none

/-- Does something in a frame and takes its output. Frames and output are then as before, also after
a failure. -/
def capture (frame : Frame) (action : Step Unit) : Step String := fun ctx =>
  let (result, after) := action { ctx.push frame with output := "" }
  (result.map fun () => after.output,
    { after with frames := after.frames.truncate ctx.depth, output := ctx.output })

def silent (action : Step Unit) : Step Unit := fun ctx =>
  let (result, after) := action { ctx with output := "" }
  (result, { after with output := ctx.output })

end Step

end JsonTemplate

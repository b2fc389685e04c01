import JsonTemplate.Execution.Nesting

namespace JsonTemplate

namespace Step

def runBody (c : Catalog) (body : List Tree) : Step Unit := fun ctx =>
  whole (runTrees c (runNested c (ctx.nestingLimit c body)) body) ctx

def runApart (c : Catalog) (frame : Frame) (body : List Tree) : Step String := fun ctx =>
  capture frame (whole (runTrees c (runNested c (ctx.nestingLimit c body)) body)) ctx

def formatNode (c : Catalog) (call : Call) (node : Node) : Step Node := fun ctx =>
  (do
    let vars ← applyFormatter c (runNested c (ctx.nestingLimit c [])) call [(.current, node)]
    pure vars.first : Step Node) ctx

end Step

namespace Context

def run (c : Catalog) (t : Template) (ctx : Context) : Except Diagnostic Unit × Context :=
  match Step.runBody c t.body ctx with
  | (.ok (), after) => (.ok (), after)
  | (.error (.problem d), after) => (.error d, after)
  | (.error (.plugin name message), after) =>
    (.error (((after.problem .unexpectedError).withName name).withData message), after)

/-- Compiles a source and executes it. A safe run takes what there is of a faulty template, and
notes its problems before its own. -/
def runSource (c : Catalog) (source : String) (ctx : Context) : Except Diagnostic Unit × Context :=
  match compileSource c ctx.options source with
  | .error d => (.error d, ctx)
  | .ok compiled => run c compiled.template (compiled.problems.foldl (fun ctx d => ctx.note d) ctx)

end Context

end JsonTemplate

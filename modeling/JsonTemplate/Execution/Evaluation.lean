import JsonTemplate.Execution.Step

namespace JsonTemplate

namespace Step

structure Evaluation where
  context : Context
  failures : Nat

def evaluationScope (source : String) : Expr.Scope Evaluation where
  lookup e name := ExprValue.ofNode (e.context.resolve name)
  assign e name v := { e with context := e.context.setVar name v.toNode }
  report e message :=
    let d := ((e.context.problem .expressionReduce).withName source).withData message
    ⟨e.context.note d, e.failures + 1⟩

def evaluate (program : Program) : Step (Option ExprValue × Nat) := fun ctx =>
  let (value, e) := program.reduce (evaluationScope program.source) ⟨ctx, 0⟩
  (.ok (value, e.failures), e.context)

/-- Whether an expression holds. What it binds is forgotten. -/
def holds (program : Program) : Step Bool := do
  let node ← read Context.node
  let (value, failures) ← within node (evaluate program)
  pure (failures == 0 && (value.map ExprValue.toBool).getD false)

def noteProblems (program : Program) : Step Unit :=
  modify fun ctx => program.problems.foldl
    (fun ctx message =>
      ctx.note (((ctx.problem .expressionParse).withName program.source).withData message))
    ctx

/-- Evaluates an expression and prints its value. What it binds is kept only if there were no
problems. -/
def runEval (program : Program) (debug : Bool) : Step Unit := do
  noteProblems program
  if debug then modify (Context.write ("EVAL=" ++ program.listing))
  if program.problems.isEmpty then
    let node ← read Context.node
    modify (Context.enter node)
    let (value, failures) ← evaluate program
    let vars ← read fun ctx => (ctx.frames.popped?.map Frame.vars).getD []
    modify Context.pop
    if failures = 0 then
      modify fun ctx => vars.foldr (fun (name, node) ctx => ctx.setVar name node) ctx
      match value with
      | none => pure ()
      | some v =>
        if debug then modify (Context.write " -> ")
        modify (Context.write v.toNode.emit)

end Step

end JsonTemplate

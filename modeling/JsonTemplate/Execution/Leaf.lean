import JsonTemplate.Execution.Evaluation
import JsonTemplate.Execution.Formatting

namespace JsonTemplate

namespace Step

def resolveAll (names : List VarName) : Step Variables :=
  read fun ctx => names.map fun name => (name, ctx.resolve name)

def runOutput (c : Catalog) (nested : Nested) (names : List VarName) (calls : List Call) :
    Step Unit := do
  let vars ← resolveAll names
  within vars.first do
    let formatted ← applyFormatters c nested calls vars
    modify (Context.write formatted.first.emit)

def runBind (c : Catalog) (nested : Nested) (name : String) (names : List VarName)
    (calls : List Call) : Step Unit := do
  let vars ← resolveAll names
  let formatted ← applyFormatters c nested calls vars
  modify (Context.setVar name formatted.first)

/-- The members of a context object. Missing nodes are left out. -/
def objectMembers (bindings : List Binding) (ctx : Context) : List (String × Json.Value) :=
  Json.Value.ofMembers (bindings.filterMap fun b =>
    let node := ctx.resolve b.var
    if node.isMissing then none else some (b.name, node.toValue))

/-- Executes a partial in the current scope, for its output or for what it defines. -/
def runInclude (c : Catalog) (nested : Nested) (name : String) (output : Bool) : Step Unit := do
  if ← read fun ctx => ctx.options.includes then
    match ← obtainPartial c .includePartialMissing .includePartialSyntax name with
    | none => pure ()
    | some body =>
      let action : Step Unit := do
        let _ ← asPartial name (nested name body)
      if output then action else silent action

def runLeaf (c : Catalog) (nested : Nested) : Leaf → Step Unit
  | .text content => modify (Context.write content)
  | .output vars formatters => runOutput c nested vars formatters
  | .bind name vars formatters => runBind c nested name vars formatters
  | .object name bindings =>
    modify fun ctx => ctx.setVar name (.value (.object (objectMembers bindings ctx)))
  | .eval program debug => runEval program debug
  | .includePartial name _ output => runInclude c nested name output
  | .inject target path _ => modify fun ctx => ctx.setVar target (ctx.injectable path)
  | .brace left => modify (Context.write (if left then "\x7b" else "\x7d"))
  | .blank kind => modify (Context.write kind.text)
  | .comment _ _ => pure ()

end Step

end JsonTemplate

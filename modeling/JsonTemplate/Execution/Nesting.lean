import JsonTemplate.Execution.Block

namespace JsonTemplate

namespace Step

/-- Executes the code of partials that are nested up to a depth. Deeper ones are refused as
recursive. -/
def runNested (c : Catalog) : Nat → Nested
  | 0, name, _ => fun ctx => refuse ((ctx.problem .applyPartialRecursion).withName name) ctx
  | depth + 1, _, body => runTrees c (runNested c depth) body

end Step

namespace Tree

mutual

def macroNames : Tree → List String
  | leaf _ _ => []
  | block _ _ body tail => macroNamesAll body ++ macroNamesTail tail
  | repeated _ _ body alternates tail =>
    macroNamesAll body ++ macroNamesAlternates alternates ++ macroNamesTail tail
  | macroDef _ name body _ => name :: macroNamesAll body

def macroNamesAll : List Tree → List String
  | [] => []
  | t :: rest => macroNames t ++ macroNamesAll rest

def macroNamesTail : Tail → List String
  | .unclosed => []
  | .closed _ => []
  | .or _ _ body tail => macroNamesAll body ++ macroNamesTail tail

def macroNamesAlternates : Alternates → List String
  | .none => []
  | .between _ body _ => macroNamesAll body

end

end Tree

namespace Context

def namesOf (code : String × List Tree) : List String := code.1 :: Tree.macroNamesAll code.2

def partialNames (c : Catalog) (options : RunOptions) (p : String × String) : List String :=
  match compileSource c options p.2 with
  | .ok compiled => namesOf (p.1, compiled.template.body)
  | .error _ => [p.1]

def knownNames (c : Catalog) (ctx : Context) (body : List Tree) : List String :=
  (Tree.macroNamesAll body
    ++ ctx.frames.toList.flatMap (fun f => f.macros.flatMap namesOf)
    ++ ctx.compiled.flatMap namesOf
    ++ ctx.options.partials.flatMap (partialNames c ctx.options)).eraseDups

/-- Partials can be nested no deeper than there are names. -/
def nestingLimit (c : Catalog) (ctx : Context) (body : List Tree) : Nat :=
  (ctx.knownNames c body).length

end Context

end JsonTemplate

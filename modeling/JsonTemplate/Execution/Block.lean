import JsonTemplate.Execution.Leaf

namespace JsonTemplate

namespace Step

/-- Whether a chain of tests holds, given the outcome so far. An operator that the outcome so far
decides ends the chain. -/
def chainFrom (truth : VarName → Bool) : Bool → List VarName → List BoolOp → Bool
  | soFar, v :: vars, o :: ops =>
    match o, soFar with
    | .or, true => true
    | .and, false => false
    | _, _ => chainFrom truth (truth v) vars ops
  | soFar, _, _ => soFar

def chainHolds (truth : VarName → Bool) : List VarName → List BoolOp → Bool
  | [], _ => false
  | v :: vars, ops => chainFrom truth (truth v) vars ops

inductive Entry where
  | skip
  | inside
  | on (node : Node)

def entry (c : Catalog) : Opener → Step Entry
  | .sectionOn var => do
    let node ← read (Context.resolveSection · var)
    pure (if node.isTruthy then .on node else .skip)
  | .predicate call => do
    let taken ← c.test call
    pure (if taken then .inside else .skip)
  | .ifChain vars ops => do
    let taken ← read fun ctx => chainHolds (fun v => (ctx.resolve v).isTruthy) vars ops
    pure (if taken then .inside else .skip)
  | .ifPredicate call => do
    let taken ← c.test call
    pure (if taken then .inside else .skip)
  | .ifExpression program => do
    let taken ← holds program
    pure (if taken then .inside else .skip)

/-- Executes the rounds of a repeated section from one on, each in a scope on its item. Between two
rounds something else is executed, in the scope of the round before. -/
def rounds (body between : Step Unit) : Nat → List Json.Value → Step Unit
  | _, [] => pure ()
  | i, item :: rest => do
    modify (Context.updateTop (Frame.setIndex (some i)))
    let node := Node.value item
    within (if node.isNull then .missing else node) do
      body
      if !rest.isEmpty then between
    rounds body between (i + 1) rest

def sectionItems (node : Node) : List Json.Value :=
  match node with
  | .value (.array items) => items
  | _ => []

mutual

def runTree (c : Catalog) (nested : Nested) : Tree → Step Unit
  | .leaf place l => instruction place l.source (runLeaf c nested l)
  | .block place o body tail =>
    instruction place o.source (do
      match ← entry c o with
      | .skip => runTail c nested tail
      | .inside => runTrees c nested body
      | .on node => within node (runTrees c nested body))
  | .repeated place var body alternates tail =>
    instruction place (repeatedSource var) (do
      let node ← read (Context.resolveSection · var)
      match sectionItems node with
      | [] => runTail c nested tail
      | items =>
        within node
          (rounds (runTrees c nested body) (runAlternates c nested alternates) 0 items))
  | .macroDef place name body _ =>
    instruction place (macroSource name) (modify (Context.setMacro name body))

def runTrees (c : Catalog) (nested : Nested) : List Tree → Step Unit
  | [] => pure ()
  | t :: rest => do
    runTree c nested t
    runTrees c nested rest

def runTail (c : Catalog) (nested : Nested) : Tail → Step Unit
  | .unclosed => pure ()
  | .closed place => instruction place Op.close.source (pure ())
  | .or place call body tail =>
    instruction place (orSource call) (do
      let taken ← match call with
        | none => pure true
        | some call => c.test call
      if taken then runTrees c nested body else runTail c nested tail)

def runAlternates (c : Catalog) (nested : Nested) : Alternates → Step Unit
  | .none => pure ()
  | .between _ body _ => do
    count
    runTrees c nested body

end

end Step

end JsonTemplate

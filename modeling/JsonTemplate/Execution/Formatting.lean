import JsonTemplate.Execution.Instruction
import JsonTemplate.Execution.Partial

namespace JsonTemplate

abbrev Nested := String → List Tree → Step Unit

namespace Step

/-- The flag that keeps the enclosing scopes from a partial. -/
def privateWord : String := "private"

def partialArgs (values : List String) : List (String × Json.Value) :=
  Json.Value.ofMembers ((values.filter (· ≠ privateWord)).filterMap fun arg =>
    let chars := arg.toList
    if chars.contains '=' then
      some (String.ofList (chars.takeWhile (· ≠ '=')),
        .string (String.ofList ((chars.dropWhile (· ≠ '=')).drop 1)))
    else none)

def partialFrame (values : List String) (node : Node) : Frame :=
  let frame := (Frame.ofNode node).setIsolated (values.contains privateWord)
  if values.isEmpty then frame else frame.setVar "@args" (.value (.object (partialArgs values)))

def applyPartial (c : Catalog) (nested : Nested) (args : Arguments) (node : Node) : Step Node := do
  match ← obtainPartial c .applyPartialMissing .applyPartialSyntax args.first with
  | none => pure .missing
  | some body =>
    let frame := partialFrame (args.values.drop 1) node
    match ← asPartial args.first (capture frame (whole (nested args.first body))) with
    | none => pure .missing
    | some text => pure (.text text)

def applyFormatter (c : Catalog) (nested : Nested) (call : Call) (vars : Variables) :
    Step Variables := do
  match (c.formatter? call.name).map Formatter.transform with
  | none => pure vars
  | some (.compute f) =>
    let result ← read fun ctx => f ctx.resolve call.args vars.first
    let node ← ofExcept result
    pure (vars.setFirst node)
  | some .applyPartial =>
    let node ← applyPartial c nested call.args vars.first
    pure (vars.setFirst node)
  | some (.step f) => f call.args vars

/-- Applies formatters in order; each counts as an instruction. -/
def applyFormatters (c : Catalog) (nested : Nested) : List Call → Variables → Step Variables
  | [], vars => pure vars
  | call :: rest, vars => do
    count
    let next ← applyFormatter c nested call vars
    applyFormatters c nested rest next

end Step

end JsonTemplate

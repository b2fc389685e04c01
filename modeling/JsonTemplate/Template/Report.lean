import JsonTemplate.Json.Value
import JsonTemplate.Template.Tree
import JsonTemplate.Template.Vocabulary

namespace JsonTemplate

open JsonTemplate.Json JsonTemplate.Text

abbrev Tally := List (String × Nat)

namespace Tally

def bump (name : String) : Tally → Tally
  | [] => [(name, 1)]
  | (key, n) :: rest =>
    if name = key then (key, n + 1) :: rest
    else if name < key then (name, 1) :: (key, n) :: rest
    else (key, n) :: bump name rest

def count (name : String) (t : Tally) : Nat := ((t.find? (·.1 = name)).map (·.2)).getD 0

def toValue (t : Tally) : Value := .object (t.map fun (name, n) => (name, .int n))

end Tally

/-- Variables by the sections they are named in. A name that opens a section is a scope with names
of its own. -/
inductive Usage where
  | name
  | scope (entries : List (String × Usage))

namespace Usage

def entries : Usage → List (String × Usage)
  | name => []
  | scope es => es

def update (key : String) (f : Usage → Usage) : List (String × Usage) → List (String × Usage)
  | [] => [(key, f name)]
  | (k, u) :: rest => if k = key then (k, f u) :: rest else (k, u) :: update key f rest

def add (v : String) : List String → Usage → Usage
  | [], u => if u.entries.any (·.1 = v) then u else scope (u.entries ++ [(v, name)])
  | outer :: inner, u => scope (update outer (add v inner) u.entries)

def openScope : List String → Usage → Usage
  | [], u => scope u.entries
  | outer :: inner, u => scope (update outer (openScope inner) u.entries)

mutual

def toValue : Usage → Value
  | name => .null
  | scope es => .object (toMembers es)

def toMembers : List (String × Usage) → List (String × Value)
  | [] => []
  | (key, u) :: rest => (key, u.toValue) :: toMembers rest

end

end Usage

structure Report where
  instructions : Tally
  formatters : Tally
  predicates : Tally
  usage : Usage
  textBytes : Nat
  ifTags : List String

namespace Report

def empty : Report := ⟨[], [], [], .scope [], 0, []⟩

def addInstruction (typeName : String) (r : Report) : Report :=
  { r with instructions := r.instructions.bump typeName }

def addFormatters (calls : List Call) (r : Report) : Report :=
  { r with formatters := calls.foldl (fun t c => t.bump c.name) r.formatters }

def addPredicate (call : Call) (r : Report) : Report :=
  { r with predicates := r.predicates.bump call.name }

def addVars (sections : List String) (vars : List VarName) (r : Report) : Report :=
  { r with usage := vars.foldl (fun u v => u.add v.text sections) r.usage }

def openScope (sections : List String) (r : Report) : Report :=
  { r with usage := r.usage.openScope sections }

def addIf (source : List Char) (r : Report) : Report :=
  { r with ifTags := r.ifTags ++ [String.ofList source] }

def addLeaf (sections : List String) (r : Report) (l : Leaf) : Report :=
  let r := r.addInstruction l.typeName
  match l with
  | .text content => { r with textBytes := r.textBytes + byteLength content.toList }
  | .output vars formatters => (r.addVars sections vars).addFormatters formatters
  | .bind _ vars formatters => (r.addVars sections vars).addFormatters formatters
  | _ => r

def addCall (vocabulary : Vocabulary) (sections : List String) (r : Report) (call : Call) :
    Report :=
  (r.addPredicate call).addVars sections (vocabulary.predicateVars call.name call.args)

/-- Adds the tag that opens a block. The predicate of an `.if` counts, its variables do not. -/
def addOpener (vocabulary : Vocabulary) (sections : List String) (r : Report) (o : Opener) :
    Report :=
  let r := r.addInstruction o.typeName
  match o with
  | .sectionOn var => r.openScope (sections ++ [var.text])
  | .predicate call => r.addCall vocabulary sections call
  | .ifChain vars _ => (r.addIf o.source).addVars sections vars
  | .ifPredicate call => (r.addIf o.source).addPredicate call
  | .ifExpression _ => r.addIf o.source

def inside (sections : List String) : Opener → List String
  | .sectionOn var => sections ++ [var.text]
  | _ => sections

mutual

def addTree (vocabulary : Vocabulary) (sections : List String) (r : Report) : Tree → Report
  | .leaf _ l => r.addLeaf sections l
  | .block _ o body tail =>
    let inner := inside sections o
    addTail vocabulary inner
      (addTrees vocabulary inner (r.addOpener vocabulary sections o) body) tail
  | .repeated _ var body alternates tail =>
    let inner := sections ++ [var.text]
    let r := (r.addInstruction (Op.repeated var).typeName).openScope inner
    addAlternates vocabulary inner
      (addTail vocabulary inner (addTrees vocabulary inner r body) tail) alternates
  | .macroDef _ name body close =>
    let r := addTrees vocabulary sections (r.addInstruction (Op.macroStart name).typeName) body
    match close with
    | none => r
    | some _ => r.addInstruction Op.close.typeName

def addTrees (vocabulary : Vocabulary) (sections : List String) (r : Report) : List Tree → Report
  | [] => r
  | t :: rest => addTrees vocabulary sections (addTree vocabulary sections r t) rest

def addTail (vocabulary : Vocabulary) (sections : List String) (r : Report) : Tail → Report
  | .unclosed => r
  | .closed _ => r.addInstruction Op.close.typeName
  | .or _ call body tail =>
    let r := r.addInstruction (Op.or call).typeName
    let r := match call with
      | none => r
      | some c => r.addCall vocabulary sections c
    addTail vocabulary sections (addTrees vocabulary sections r body) tail

def addAlternates (vocabulary : Vocabulary) (sections : List String) (r : Report) :
    Alternates → Report
  | .none => r
  | .between _ body implied =>
    let r := addTrees vocabulary sections (r.addInstruction Op.alternates.typeName) body
    match implied with
    | none => r
    | some _ => r.addInstruction Op.close.typeName

end

def addTemplate (vocabulary : Vocabulary) (r : Report) (t : Template) : Report :=
  let r := addTrees vocabulary [] r t.body
  match t.eof with
  | none => r
  | some _ => r.addInstruction Op.eof.typeName

def ofTemplate (vocabulary : Vocabulary) (t : Template) : Report := empty.addTemplate vocabulary t

def toValue (r : Report) : Value :=
  .object [("instructions", r.instructions.toValue), ("formatters", r.formatters.toValue),
    ("predicates", r.predicates.toValue), ("variables", r.usage.toValue),
    ("textBytes", .int r.textBytes), ("ifInstructions", .array (r.ifTags.map .string))]

end Report

end JsonTemplate

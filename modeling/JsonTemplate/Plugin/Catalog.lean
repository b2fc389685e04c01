import JsonTemplate.Execution.Step
import JsonTemplate.Template.Vocabulary

namespace JsonTemplate

abbrev Variables := List (VarName × Node)

namespace Variables

def first (vars : Variables) : Node :=
  match vars with
  | [] => .missing
  | (_, node) :: _ => node

def setFirst (node : Node) (vars : Variables) : Variables :=
  match vars with
  | [] => []
  | (name, _) :: rest => (name, node) :: rest

end Variables

inductive Transform where
  /-- Computes the first node anew; other variables can be looked up. -/
  | compute (f : (VarName → Node) → Arguments → Node → Except Failure Node)
  /-- Puts the output of a partial in place of the first node. -/
  | applyPartial
  /-- Changes the variables in a step of the run. -/
  | step (f : Arguments → Variables → Step Variables)

structure Formatter where
  signature : Signature
  transform : Transform

structure Predicate where
  signature : Signature
  vars : Arguments → List VarName
  test : Context → Arguments → Except Failure Bool

structure Catalog where
  formatters : Bindings Formatter
  predicates : Bindings Predicate

namespace Catalog

def empty : Catalog := ⟨[], []⟩

def formatter? (c : Catalog) (name : String) : Option Formatter := c.formatters.get? name

def predicate? (c : Catalog) (name : String) : Option Predicate := c.predicates.get? name

def addFormatter (name : String) (f : Formatter) (c : Catalog) : Catalog :=
  { c with formatters := c.formatters.set name f }

def addPredicate (name : String) (p : Predicate) (c : Catalog) : Catalog :=
  { c with predicates := c.predicates.set name p }

def vocabulary (c : Catalog) : Vocabulary where
  formatter? name := (c.formatter? name).map Formatter.signature
  predicate? name := (c.predicate? name).map Predicate.signature
  predicateVars name args :=
    match c.predicate? name with
    | some p => p.vars args
    | none => []

/-- Whether a predicate holds. One that the catalog does not have never does. -/
def test (c : Catalog) (call : Call) : Step Bool := fun ctx =>
  match c.predicate? call.name with
  | some p => (p.test ctx call.args, ctx)
  | none => (.ok false, ctx)

end Catalog

end JsonTemplate

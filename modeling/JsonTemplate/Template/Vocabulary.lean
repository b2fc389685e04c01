import JsonTemplate.Arguments
import JsonTemplate.Variable.Name

namespace JsonTemplate

structure Signature where
  requiresArgs : Bool
  /-- The text of the objection, if the arguments are refused. -/
  check : Arguments → Except String Unit

structure Vocabulary where
  formatter? : String → Option Signature
  predicate? : String → Option Signature
  predicateVars : String → Arguments → List VarName

def Vocabulary.empty : Vocabulary := ⟨fun _ => none, fun _ => none, fun _ _ => []⟩

end JsonTemplate

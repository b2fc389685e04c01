import JsonTemplate.Text.Offset

namespace JsonTemplate

open JsonTemplate.Text

inductive CompileFault where
  | bindvarExpectsName
  | ctxvarExpectsBindings
  | ctxvarExpectsName
  | deadCodeBlock
  | eofInBlock
  | eofInComment
  | evalExpectsExpression
  | extraChars
  | formatterArgsInvalid
  | formatterInvalid
  | formatterNeedsArgs
  | formatterUnknown
  | ifEmpty
  | ifExpectedVarop
  | ifExpressionInvalid
  | ifTooManyOperators
  | ifTooManyVars
  | includeExpectsName
  | injectExpectsName
  | injectExpectsPath
  | invalidInstruction
  | macroExpectsName
  | mismatchedEnd
  | missingSectionKeyword
  | missingVariableName
  | missingWithKeyword
  | notAllowedAtRoot
  | notAllowedInBlock
  | orExpectedPredicate
  | predicateArgsInvalid
  | predicateNeedsArgs
  | predicateUnknown
  | variableExpected
  | whitespaceExpected
  deriving Repr, DecidableEq

inductive RunFault where
  | applyPartialMissing
  | applyPartialRecursion
  | applyPartialSyntax
  | codeLimitReached
  | compilePartialSyntax
  | expressionParse
  | expressionReduce
  | generalError
  | includePartialMissing
  | includePartialSyntax
  | unexpectedError
  deriving Repr, DecidableEq

inductive Fault where
  | compile (fault : CompileFault)
  | run (fault : RunFault)
  deriving Repr, DecidableEq

structure Diagnostic where
  fault : Fault
  place : Position
  typeName : Option String
  name : Option String
  data : Option String
  limit : Option Nat
  source : Option String
  causes : List Diagnostic
  deriving Repr

namespace CompileFault

def all : List CompileFault :=
  [bindvarExpectsName, ctxvarExpectsBindings, ctxvarExpectsName, deadCodeBlock, eofInBlock,
    eofInComment, evalExpectsExpression, extraChars, formatterArgsInvalid, formatterInvalid,
    formatterNeedsArgs, formatterUnknown, ifEmpty, ifExpectedVarop, ifExpressionInvalid,
    ifTooManyOperators, ifTooManyVars, includeExpectsName, injectExpectsName, injectExpectsPath,
    invalidInstruction, macroExpectsName, mismatchedEnd, missingSectionKeyword,
    missingVariableName, missingWithKeyword, notAllowedAtRoot, notAllowedInBlock,
    orExpectedPredicate, predicateArgsInvalid, predicateNeedsArgs, predicateUnknown,
    variableExpected, whitespaceExpected]

def code : CompileFault → String
  | bindvarExpectsName => "BINDVAR_EXPECTS_NAME"
  | ctxvarExpectsBindings => "CTXVAR_EXPECTS_BINDINGS"
  | ctxvarExpectsName => "CTXVAR_EXPECTS_NAME"
  | deadCodeBlock => "DEAD_CODE_BLOCK"
  | eofInBlock => "EOF_IN_BLOCK"
  | eofInComment => "EOF_IN_COMMENT"
  | evalExpectsExpression => "EVAL_EXPECTS_EXPRESSION"
  | extraChars => "EXTRA_CHARS"
  | formatterArgsInvalid => "FORMATTER_ARGS_INVALID"
  | formatterInvalid => "FORMATTER_INVALID"
  | formatterNeedsArgs => "FORMATTER_NEEDS_ARGS"
  | formatterUnknown => "FORMATTER_UNKNOWN"
  | ifEmpty => "IF_EMPTY"
  | ifExpectedVarop => "IF_EXPECTED_VAROP"
  | ifExpressionInvalid => "IF_EXPRESSION_INVALID"
  | ifTooManyOperators => "IF_TOO_MANY_OPERATORS"
  | ifTooManyVars => "IF_TOO_MANY_VARS"
  | includeExpectsName => "INCLUDE_EXPECTS_NAME"
  | injectExpectsName => "INJECT_EXPECTS_NAME"
  | injectExpectsPath => "INJECT_EXPECTS_PATH"
  | invalidInstruction => "INVALID_INSTRUCTION"
  | macroExpectsName => "MACRO_EXPECTS_NAME"
  | mismatchedEnd => "MISMATCHED_END"
  | missingSectionKeyword => "MISSING_SECTION_KEYWORD"
  | missingVariableName => "MISSING_VARIABLE_NAME"
  | missingWithKeyword => "MISSING_WITH_KEYWORD"
  | notAllowedAtRoot => "NOT_ALLOWED_AT_ROOT"
  | notAllowedInBlock => "NOT_ALLOWED_IN_BLOCK"
  | orExpectedPredicate => "OR_EXPECTED_PREDICATE"
  | predicateArgsInvalid => "PREDICATE_ARGS_INVALID"
  | predicateNeedsArgs => "PREDICATE_NEEDS_ARGS"
  | predicateUnknown => "PREDICATE_UNKNOWN"
  | variableExpected => "VARIABLE_EXPECTED"
  | whitespaceExpected => "WHITESPACE_EXPECTED"

end CompileFault

namespace RunFault

def all : List RunFault :=
  [applyPartialMissing, applyPartialRecursion, applyPartialSyntax, codeLimitReached,
    compilePartialSyntax, expressionParse, expressionReduce, generalError, includePartialMissing,
    includePartialSyntax, unexpectedError]

def code : RunFault → String
  | applyPartialMissing => "APPLY_PARTIAL_MISSING"
  | applyPartialRecursion => "APPLY_PARTIAL_RECURSION"
  | applyPartialSyntax => "APPLY_PARTIAL_SYNTAX"
  | codeLimitReached => "CODE_LIMIT_REACHED"
  | compilePartialSyntax => "COMPILE_PARTIAL_SYNTAX"
  | expressionParse => "EXPRESSION_PARSE"
  | expressionReduce => "EXPRESSION_REDUCE"
  | generalError => "GENERAL_ERROR"
  | includePartialMissing => "INCLUDE_PARTIAL_MISSING"
  | includePartialSyntax => "INCLUDE_PARTIAL_SYNTAX"
  | unexpectedError => "UNEXPECTED_ERROR"

end RunFault

namespace Fault

def code : Fault → String
  | compile fault => fault.code
  | run fault => fault.code

def ofCode? (code : String) : Option Fault :=
  match CompileFault.all.find? (·.code = code) with
  | some fault => some (.compile fault)
  | none => (RunFault.all.find? (·.code = code)).map .run

def heading : Fault → String
  | compile _ => "SyntaxError"
  | run _ => "RuntimeError"

def isWarning : Fault → Bool
  | compile .deadCodeBlock => true
  | _ => false

end Fault

namespace Diagnostic

def ofFault (fault : Fault) (place : Position) : Diagnostic :=
  ⟨fault, place, none, none, none, none, none, []⟩

def compile (fault : CompileFault) (place : Position) : Diagnostic := ofFault (.compile fault) place

def run (fault : RunFault) (place : Position) : Diagnostic := ofFault (.run fault) place

def withType (d : Diagnostic) (typeName : String) : Diagnostic :=
  { d with typeName := some typeName }
def withName (d : Diagnostic) (name : String) : Diagnostic := { d with name := some name }
def withData (d : Diagnostic) (data : String) : Diagnostic := { d with data := some data }
def withLimit (d : Diagnostic) (limit : Nat) : Diagnostic := { d with limit := some limit }
def withSource (d : Diagnostic) (source : String) : Diagnostic := { d with source := some source }
def withCauses (d : Diagnostic) (causes : List Diagnostic) : Diagnostic :=
  { d with causes := d.causes ++ causes }

def unset : String := "???"

def compileDetail (fault : CompileFault) (typeName name data limit : String) : String :=
  match fault with
  | .bindvarExpectsName => s!"Expected a variable name to bind, found '{data}'"
  | .ctxvarExpectsBindings => s!"Expected one or more key=variable bindings, found '{data}'"
  | .ctxvarExpectsName => s!"Expected a variable name for the context, found '{data}'"
  | .deadCodeBlock => s!"This {typeName} block will never execute."
  | .eofInBlock => s!"Reached EOF in the middle of {data}"
  | .eofInComment => "Reached EOF in the middle of a multi-line comment"
  | .evalExpectsExpression => "EVAL instruction requires an expression."
  | .extraChars => s!"Extra characters found after {typeName} instruction: '{data}'"
  | .formatterArgsInvalid => s!"Formatter '{name}' arguments are invalid: '{data}'"
  | .formatterInvalid => s!"Invalid formatter name '{name}' found."
  | .formatterNeedsArgs => s!"Formatter '{data}' needs arguments but none were provided."
  | .formatterUnknown => s!"Formatter '{name}' is unknown."
  | .ifEmpty => "IF instruction requires at least one variable to test."
  | .ifExpectedVarop => s!"Expected an operator or a variable, found '{data}'"
  | .ifExpressionInvalid => s!"IF expression is invalid: {data}"
  | .ifTooManyOperators => "Too many operators in IF instruction."
  | .ifTooManyVars => s!"Too many variables in IF instruction. Limit is {limit}."
  | .includeExpectsName => "INCLUDE instruction requires the name of a partial or macro."
  | .injectExpectsName => s!"Expected a variable name to inject into, found '{data}'"
  | .injectExpectsPath => s!"Expected a path to inject, found '{data}'"
  | .invalidInstruction => s!"Invalid instruction '{data}'"
  | .macroExpectsName => "MACRO instruction requires a name."
  | .mismatchedEnd => "Mismatched END found at ROOT."
  | .missingSectionKeyword => s!"Missing 'section' keyword, found '{data}'"
  | .missingVariableName => s!"Missing variable name, found '{data}'"
  | .missingWithKeyword => s!"Missing 'with' keyword, found '{data}'"
  | .notAllowedAtRoot => s!"{typeName} instruction is not allowed at the template root."
  | .notAllowedInBlock => s!"{typeName} instruction is not allowed inside {data} block."
  | .orExpectedPredicate => s!"Expected a predicate to follow {typeName}, found '{data}'"
  | .predicateArgsInvalid => s!"Predicate {name} arguments invalid: '{data}'"
  | .predicateNeedsArgs => s!"Predicate '.{data}' requires arguments but none were provided."
  | .predicateUnknown => s!"Predicate '{data}' is unknown."
  | .variableExpected => s!"Variable expected, found '{data}'"
  | .whitespaceExpected => s!"Whitespace expected, found '{data}'"

def runDetail (fault : RunFault) (name data source : String) : String :=
  match fault with
  | .applyPartialMissing => s!"Attempt to apply partial '{name}' which could not be found."
  | .applyPartialRecursion => s!"Recursive application of partial '{name}' was refused."
  | .applyPartialSyntax => s!"Applying partial '{name}' raised an error: {data}"
  | .codeLimitReached => s!"A {name} code limit was reached {data}"
  | .compilePartialSyntax => s!"Compiling partial '{name}' raised errors:"
  | .expressionParse => s!"Expression '{name}' could not be parsed: {data}"
  | .expressionReduce => s!"Expression '{name}' could not be evaluated: {data}"
  | .generalError => s!"Default error {name}: {data}"
  | .includePartialMissing => s!"Attempt to include partial '{name}' which could not be found."
  | .includePartialSyntax => s!"Including partial '{name}' raised an error: {data}"
  | .unexpectedError => s!"Unexpected {name} when executing {source}: {data}"

def detail (d : Diagnostic) : String :=
  let typeName := d.typeName.getD unset
  let name := d.name.getD unset
  let data := d.data.getD unset
  let limit := (d.limit.map toString).getD unset
  let source := d.source.getD unset
  match d.fault with
  | .compile fault => compileDetail fault typeName name data limit
  | .run fault => runDetail fault name data source

def label (d : Diagnostic) : String :=
  s!"{d.fault.heading} {d.fault.code} at line {d.place.line} character {d.place.column}"

def message (d : Diagnostic) : String := s!"{d.label}: {d.detail}"

def fullMessage (d : Diagnostic) : String :=
  if d.causes.isEmpty then d.message
  else d.message ++ ", causes follow: " ++ ", ".intercalate (d.causes.map message)

def isCompile (d : Diagnostic) (fault : CompileFault) : Bool := d.fault = .compile fault

def isRun (d : Diagnostic) (fault : RunFault) : Bool := d.fault = .run fault

end Diagnostic

end JsonTemplate

import JsonTemplate.Diagnostic
import JsonTemplate.Pattern.Tokens
import JsonTemplate.Template.Instruction
import JsonTemplate.Template.Vocabulary

namespace JsonTemplate

open JsonTemplate.Text JsonTemplate.Pattern

inductive Reading where
  | instruction (op : Op)
  | dropped
  | plain
  | asText

structure TagReading where
  problems : List Diagnostic
  reading : Reading

namespace Tag

structure Rules where
  vocabulary : Vocabulary
  expr : ExprOptions
  /-- Only tags that start with a caret count; all else is text. -/
  preprocess : Bool

def ifVariableLimit : Nat := 30

/-- Characters that make the content of an `.if` an expression. -/
def expressionChars : List Char := "<>=!+*/%()'\"~^;,".toList

inductive Keyword where
  | alternates
  | bind
  | object
  | close
  | eval
  | ifTest
  | includePartial
  | inject
  | macroStart
  | brace (left : Bool)
  | blank (kind : Blank)
  | or
  | repeated
  | sectionOn
  deriving Repr, DecidableEq

def Keyword.ofWord? (word : String) : Option Keyword :=
  match word with
  | ".alternates" => some alternates
  | ".var" => some bind
  | ".ctx" => some object
  | ".end" => some close
  | ".eval" => some eval
  | ".if" => some ifTest
  | ".include" => some includePartial
  | ".inject" => some inject
  | ".macro" => some macroStart
  | ".meta-left" => some (brace true)
  | ".meta-right" => some (brace false)
  | ".newline" => some (blank .newline)
  | ".or" => some or
  | ".repeated" => some repeated
  | ".section" => some sectionOn
  | ".space" => some (blank .space)
  | ".tab" => some (blank .tab)
  | _ => none

def Keyword.typeName : Keyword → String
  | alternates => "ALTERNATES_WITH"
  | bind => "BINDVAR"
  | object => "CTXVAR"
  | close => "END"
  | eval => "EVAL"
  | ifTest => "IF"
  | includePartial => "INCLUDE"
  | inject => "INJECT"
  | macroStart => "MACRO"
  | brace left => if left then "META_LEFT" else "META_RIGHT"
  | blank kind => kind.typeName
  | or => "OR_PREDICATE"
  | repeated => "REPEATED"
  | sectionOn => "SECTION"

def accept (op : Op) : TagReading := ⟨[], .instruction op⟩

def refuse (d : Diagnostic) : TagReading := ⟨[d], .asText⟩

def refuseAt (place : Position) (fault : CompileFault) (rest : List Char) : TagReading :=
  refuse ((Diagnostic.compile fault place).withData (String.ofList rest))

def refuseIn (place : Position) (fault : CompileFault) (keyword : Keyword) (rest : List Char) :
    TagReading :=
  refuse
    (((Diagnostic.compile fault place).withData (String.ofList rest)).withType keyword.typeName)

def finish (place : Position) (keyword : Keyword) (op : Op) (rest : List Char) : TagReading :=
  if rest.isEmpty then accept op else refuseIn place .extraChars keyword rest

def readVar? (text : List Char) : Option (VarName × List Char) :=
  (variableName.split? text).map fun (name, rest) => (VarName.parse name, rest)

/-- Reads the variables after the first one, each after a comma. If one is missing the outcome is
the unread text. Each round takes a comma, so the length of the text bounds the rounds. -/
def readMoreVars : Nat → List Char → Except (List Char) (List VarName × List Char)
  | 0, text => .ok ([], text)
  | fuel + 1, text =>
    match variablesDelimiter.split? text with
    | none => .ok ([], text)
    | some (_, afterComma) =>
      match readVar? afterComma with
      | none => .error afterComma
      | some (v, rest) => (readMoreVars fuel rest).map fun (vs, left) => (v :: vs, left)

/-- Reads one variable, or several that a pipe follows. Two pipes in a row are no chain of
formatters. -/
def readVars (text : List Char) : Except (List Char) (List VarName × List Char) :=
  match readVar? text with
  | none => .error text
  | some (v, afterFirst) => do
    let (vs, rest) ← readMoreVars afterFirst.length afterFirst
    match vs, rest with
    | _, '|' :: '|' :: _ => .error rest
    | _, '|' :: _ => .ok (v :: vs, rest)
    | [], _ => .ok ([v], rest)
    | _ :: _, _ => .error rest

def readArgs? (text : List Char) : Option (List Char × List Char) := argumentsPattern.split? text

/-- Reads a chain of formatters. `anchor` is the text from which the columns of problems count. Each
round takes a pipe, so the length of the text bounds the rounds. -/
def readFormatters (rules : Rules) (place : Position) (anchor : List Char) :
    Nat → List Char → Except TagReading (List Call × List Char)
  | fuel + 1, '|' :: afterPipe =>
    let problem (fault : CompileFault) (rest : List Char) : Diagnostic :=
      .compile fault (place.forward (anchor.length - rest.length))
    match wordPattern.split? afterPipe with
    | none =>
      .error (refuse ((problem .formatterInvalid afterPipe).withName (String.ofList afterPipe)))
    | some (word, afterName) =>
      let name := String.ofList word
      match rules.vocabulary.formatter? name with
      | none => .error (refuse ((problem .formatterUnknown afterPipe).withName name))
      | some signature =>
        let raw := readArgs? afterName
        let argsStart := if raw.isSome then afterName else afterPipe
        if signature.requiresArgs ∧ raw.isNone then
          .error (refuse ((problem .formatterNeedsArgs argsStart).withData name))
        else
          let (text, rest) := raw.getD ([], afterName)
          let args := Arguments.parse text
          match signature.check args with
          | .error objection =>
            .error (refuse
              (((problem .formatterArgsInvalid argsStart).withName name).withData objection))
          | .ok () =>
            (readFormatters rules place anchor fuel rest).map fun (calls, left) =>
              (⟨name, args.accept⟩ :: calls, left)
  | _, text => .ok ([], text)

/-- Reads a chain of formatters up to the end of the tag and makes an instruction of it. Text that
is left makes the tag text without a problem. -/
def withFormatters (rules : Rules) (place : Position) (anchor text : List Char)
    (make : List Call → Op) : TagReading :=
  match readFormatters rules place anchor (text.length + 1) text with
  | .error r => r
  | .ok (calls, []) => accept (make calls)
  | .ok (_, _ :: _) => ⟨[], .asText⟩

/-- Reads the arguments of a predicate, which take up the rest of the tag. An unknown predicate is a
problem but stays in the tree. -/
def withPredicate (rules : Rules) (place : Position) (name : String) (rest : List Char)
    (make : Call → Op) : TagReading :=
  match rules.vocabulary.predicate? name with
  | none =>
    ⟨[(Diagnostic.compile .predicateUnknown place).withData name],
      .instruction (make ⟨name, Arguments.parse rest⟩)⟩
  | some signature =>
    if rest.isEmpty ∧ signature.requiresArgs then
      refuse ((Diagnostic.compile .predicateNeedsArgs place).withData name)
    else
      let args := Arguments.parse rest
      match signature.check args with
      | .error objection =>
        refuse (((Diagnostic.compile .predicateArgsInvalid place).withName name).withData objection)
      | .ok () => accept (make ⟨name, args.accept⟩)

def afterSpace (place : Position) (text : List Char) (next : List Char → TagReading) : TagReading :=
  match text with
  | ' ' :: rest => next rest
  | _ => refuseAt place .whitespaceExpected text

def afterBlank (place : Position) (text : List Char) (next : List Char → TagReading) : TagReading :=
  match whitespace.split? text with
  | some (_, rest) => next rest
  | none => refuseAt place .whitespaceExpected text

def afterLocal (place : Position) (fault : CompileFault) (text : List Char)
    (next : String → List Char → TagReading) : TagReading :=
  afterSpace place text fun body =>
    match localVariable.split? body with
    | none => refuseAt place fault body
    | some (name, afterName) => afterSpace place afterName (next (String.ofList name))

def skipBlank (text : List Char) : List Char := text.dropWhile isTagSpace

/-- Reads bindings up to the first one that is not well formed. Each round takes a word, so the
length of the text bounds the rounds. -/
def readBindings : Nat → List Char → List Binding × List Char
  | 0, text => ([], text)
  | fuel + 1, text =>
    match wordPattern.split? text with
    | none => ([], text)
    | some (name, '=' :: afterSign) =>
      match readVar? afterSign with
      | none => ([], afterSign)
      | some (var, afterVar) =>
        let binding : Binding := ⟨String.ofList name, var⟩
        match whitespace.split? afterVar with
        | none => ([binding], afterVar)
        | some (_, rest) =>
          let (bindings, left) := readBindings fuel rest
          (binding :: bindings, left)
    | some (_, afterName) => ([], afterName)

structure Chain where
  vars : List VarName
  ops : List BoolOp
  rest : List Char

def readBoolOp? : List Char → Option (BoolOp × List Char)
  | '&' :: '&' :: rest => some (.and, rest)
  | '|' :: '|' :: rest => some (.or, rest)
  | _ => none

/-- Reads tests and operators while they alternate. The outcome is none where there are too many
tests. Each round takes a test, so the limit bounds the rounds. -/
def readChain : Nat → List Char → Option Chain
  | room, text =>
    match readVar? text with
    | none => some ⟨[], [], text⟩
    | some (v, afterVar) =>
      match room with
      | 0 => none
      | room + 1 =>
        match readBoolOp? (skipBlank afterVar) with
        | none => some ⟨[v], [], skipBlank afterVar⟩
        | some (o, afterOp) =>
          (readChain room (skipBlank afterOp)).map fun c => ⟨v :: c.vars, o :: c.ops, c.rest⟩

def readIfChain (place : Position) (text : List Char) : TagReading :=
  match readChain ifVariableLimit text with
  | none => refuse ((Diagnostic.compile .ifTooManyVars place).withLimit ifVariableLimit)
  | some c =>
    if !c.rest.isEmpty then refuseAt place .ifExpectedVarop c.rest
    else if c.vars.isEmpty then refuse (.compile .ifEmpty place)
    else if c.vars.length ≠ c.ops.length + 1 then refuse (.compile .ifTooManyOperators place)
    else accept (.opening (.ifChain c.vars c.ops))

def readIf (rules : Rules) (place : Position) (text : List Char) : TagReading :=
  afterBlank place text fun body =>
    match predicateName.split? body with
    | some (name, rest) =>
      withPredicate rules place (String.ofList name) rest fun c => .opening (.ifPredicate c)
    | none =>
      if body.any expressionChars.contains then
        let program := Program.parse rules.expr (String.ofList body)
        if program.problems.isEmpty then accept (.opening (.ifExpression program))
        else
          refuse ((Diagnostic.compile .ifExpressionInvalid place).withData
            ("; ".intercalate program.problems))
      else readIfChain place body

def readSection (place : Position) (keyword : Keyword) (text : List Char) (make : VarName → Op) :
    TagReading :=
  match readVar? text with
  | none => refuseAt place .variableExpected text
  | some (v, rest) => finish place keyword (make v) rest

def readEval (rules : Rules) (place : Position) (text : List Char) : TagReading :=
  if text.isEmpty then refuseAt place .evalExpectsExpression text
  else
    afterBlank place text fun content =>
      let debug := content.head? = some '#'
      let body := if debug then content.drop 1 else content
      if body.all isUnicodeSpace then refuseAt place .evalExpectsExpression content
      else accept (.leaf (.eval (Program.parse rules.expr (String.ofList body)) debug))

def readInclude (place : Position) (text : List Char) : TagReading :=
  match readArgs? text with
  | none => refuseAt place .includeExpectsName text
  | some (raw, rest) =>
    let args := Arguments.parse raw
    match args.values with
    | [] => refuseAt place .includeExpectsName rest
    | name :: options =>
      accept (.leaf (.includePartial name args (options.contains "output")))

def readOr (rules : Rules) (place : Position) (text : List Char) : TagReading :=
  match text with
  | ' ' :: body =>
    match predicateName.split? body with
    | none => refuseIn place .orExpectedPredicate .or body
    | some (name, rest) =>
      withPredicate rules place (String.ofList name) rest fun c => .or (some c)
  | _ => finish place .or (.or none) text

def readInstruction (rules : Rules) (place : Position) (keyword : Keyword) (text : List Char) :
    TagReading :=
  match keyword with
  | .alternates =>
    afterSpace place text fun body =>
      match wordWith.split? body with
      | none => refuseAt place .missingWithKeyword body
      | some (_, rest) => finish place keyword .alternates rest
  | .bind =>
    afterLocal place .bindvarExpectsName text fun name body =>
      match readVars body with
      | .error rest => refuseAt place .missingVariableName rest
      | .ok (vars, rest) =>
        withFormatters rules place text rest fun calls => .leaf (.bind name vars calls)
  | .object =>
    afterLocal place .ctxvarExpectsName text fun name body =>
      match readBindings body.length body with
      | ([], rest) => refuseAt place .ctxvarExpectsBindings rest
      | (bindings, _) => accept (.leaf (.object name bindings))
  | .close => finish place keyword .close text
  | .brace left => finish place keyword (.leaf (.brace left)) text
  | .blank kind => finish place keyword (.leaf (.blank kind)) text
  | .eval => readEval rules place text
  | .ifTest => readIf rules place text
  | .includePartial => readInclude place text
  | .inject =>
    afterLocal place .injectExpectsName text fun name body =>
      match path.split? body with
      | none => refuseAt place .injectExpectsPath body
      | some (path, afterPath) =>
        let args := match readArgs? afterPath with
          | some (raw, _) => Arguments.parse raw
          | none => Arguments.none
        accept (.leaf (.inject name (String.ofList path) args))
  | .macroStart =>
    afterSpace place text fun body =>
      match path.split? body with
      | none => refuse (.compile .macroExpectsName place)
      | some (name, rest) => finish place keyword (.macroStart (String.ofList name)) rest
  | .or => readOr rules place text
  | .repeated =>
    afterBlank place text fun body =>
      match wordSection.split? body with
      | none => refuseAt place .missingSectionKeyword body
      | some (_, afterWord) =>
        afterBlank place afterWord fun rest => readSection place keyword rest .repeated
  | .sectionOn =>
    afterBlank place text fun body =>
      readSection place keyword body fun v => .opening (.sectionOn v)

/-- Reads variables with formatters; anything else is text. `anchor` is the whole content. -/
def readOutput (rules : Rules) (place : Position) (anchor text : List Char) : TagReading :=
  match readVars text with
  | .error _ => ⟨[], .plain⟩
  | .ok (vars, rest) =>
    withFormatters rules place anchor rest fun calls => .leaf (.output vars calls)

def readBody (rules : Rules) (place : Position) (anchor text : List Char) : TagReading :=
  match text with
  | '#' :: content => accept (.leaf (.comment (String.ofList content) false))
  | _ =>
    match keyword.split? text with
    | none => readOutput rules place anchor text
    | some (word, rest) =>
      if word.getLast? = some '?' then
        withPredicate rules place (String.ofList (word.drop 1)) rest fun c =>
          .opening (.predicate c)
      else
        match Keyword.ofWord? (String.ofList word) with
        | some k => readInstruction rules place k rest
        | none => refuseAt place .invalidInstruction word

def read (rules : Rules) (place : Position) (content : List Char) : TagReading :=
  match content with
  | '^' :: body => if rules.preprocess then readBody rules place content body else ⟨[], .dropped⟩
  | _ => if rules.preprocess then ⟨[], .plain⟩ else readBody rules place content content

end Tag

end JsonTemplate

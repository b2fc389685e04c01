import JsonTemplate.Arguments
import JsonTemplate.Expr.Program
import JsonTemplate.Text.Offset

namespace JsonTemplate

open JsonTemplate.Text

structure Call where
  name : String
  args : Arguments
  deriving Repr, DecidableEq

inductive BoolOp where
  | and
  | or
  deriving Repr, DecidableEq

def BoolOp.symbol : BoolOp → String
  | and => "&&"
  | or => "||"

inductive Blank where
  | newline
  | space
  | tab
  deriving Repr, DecidableEq

namespace Blank

def text : Blank → String
  | newline => "\n"
  | space => " "
  | tab => "\t"

def keyword : Blank → String
  | newline => "newline"
  | space => "space"
  | tab => "tab"

def typeName : Blank → String
  | newline => "NEWLINE"
  | space => "SPACE"
  | tab => "TAB"

end Blank

structure Binding where
  name : String
  var : VarName
  deriving Repr, DecidableEq

inductive Leaf where
  | text (content : String)
  | output (vars : List VarName) (formatters : List Call)
  | bind (name : String) (vars : List VarName) (formatters : List Call)
  | object (name : String) (bindings : List Binding)
  | eval (program : Program) (debug : Bool)
  | includePartial (name : String) (args : Arguments) (output : Bool)
  | inject (target path : String) (args : Arguments)
  | brace (left : Bool)
  | blank (kind : Blank)
  | comment (content : String) (multiline : Bool)

inductive Opener where
  | sectionOn (var : VarName)
  | predicate (call : Call)
  | ifChain (vars : List VarName) (ops : List BoolOp)
  | ifPredicate (call : Call)
  | ifExpression (program : Program)

inductive Op where
  | leaf (l : Leaf)
  | opening (o : Opener)
  | repeated (var : VarName)
  | alternates
  | or (call : Option Call)
  | macroStart (name : String)
  | close
  | eof

structure Instruction where
  place : Position
  op : Op

namespace Leaf

def typeName : Leaf → String
  | text _ => "TEXT"
  | output _ _ => "VARIABLE"
  | bind _ _ _ => "BINDVAR"
  | object _ _ => "CTXVAR"
  | eval _ _ => "EVAL"
  | includePartial _ _ _ => "INCLUDE"
  | inject _ _ _ => "INJECT"
  | brace left => if left then "META_LEFT" else "META_RIGHT"
  | blank kind => kind.typeName
  | comment _ _ => "COMMENT"

end Leaf

namespace Opener

def typeName : Opener → String
  | sectionOn _ => "SECTION"
  | predicate _ => "PREDICATE"
  | ifChain _ _ => "IF"
  | ifPredicate _ => "IF"
  | ifExpression _ => "IF"

end Opener

namespace Op

def typeName : Op → String
  | leaf l => l.typeName
  | opening o => o.typeName
  | repeated _ => "REPEATED"
  | alternates => "ALTERNATES_WITH"
  | or _ => "OR_PREDICATE"
  | macroStart _ => "MACRO"
  | close => "END"
  | eof => "EOF"

end Op

def inBraces (content : List Char) : List Char := '{' :: (content ++ ['}'])

def varsSource (vars : List VarName) : List Char :=
  joinWith [','] (vars.map fun v => v.text.toList)

def Call.source (c : Call) : List Char := c.name.toList ++ c.args.join

def formattersSource (calls : List Call) : List Char := calls.flatMap fun c => '|' :: c.source

/-- Tests and the operators between them. A missing operator reads as `||`. -/
def chainSource : List VarName → List BoolOp → List Char
  | [], _ => []
  | [v], _ => v.text.toList
  | v :: vars, ops =>
    v.text.toList ++ ' ' :: (ops.headD .or).symbol.toList ++ ' ' :: chainSource vars (ops.drop 1)

namespace Leaf

def source : Leaf → List Char
  | text content => content.toList
  | output vars formatters => inBraces (varsSource vars ++ formattersSource formatters)
  | bind name vars formatters =>
    inBraces
      (".var ".toList ++ name.toList ++ ' ' :: varsSource vars ++ formattersSource formatters)
  | object name bindings =>
    inBraces (".ctx ".toList ++ name.toList
      ++ bindings.flatMap fun b => ' ' :: b.name.toList ++ '=' :: b.var.text.toList)
  | eval program debug =>
    inBraces (".eval ".toList ++ (if debug then ['#'] else []) ++ program.source.toList)
  | includePartial _ args _ => inBraces (".include".toList ++ args.join)
  | inject target path args =>
    inBraces (".inject ".toList ++ target.toList ++ ' ' :: path.toList ++ args.join)
  | brace left => inBraces (if left then ".meta-left".toList else ".meta-right".toList)
  | blank kind => inBraces ('.' :: kind.keyword.toList)
  | comment content multiline =>
    if multiline then inBraces ("##".toList ++ content.toList ++ "##".toList)
    else inBraces ('#' :: content.toList)

end Leaf

namespace Opener

def source : Opener → List Char
  | sectionOn var => inBraces (".section ".toList ++ var.text.toList)
  | predicate call => inBraces ('.' :: call.source)
  | ifChain vars ops => inBraces (".if ".toList ++ chainSource vars ops)
  | ifPredicate call => inBraces (".if ".toList ++ call.source)
  | ifExpression program => inBraces (".if ".toList ++ program.source.toList)

end Opener

def orSource : Option Call → List Char
  | none => inBraces ".or".toList
  | some call => inBraces (".or ".toList ++ call.source)

def repeatedSource (var : VarName) : List Char :=
  inBraces (".repeated section ".toList ++ var.text.toList)

def macroSource (name : String) : List Char := inBraces (".macro ".toList ++ name.toList)

namespace Op

def source : Op → List Char
  | leaf l => l.source
  | opening o => o.source
  | repeated var => repeatedSource var
  | alternates => inBraces ".alternates with".toList
  | or call => orSource call
  | macroStart name => macroSource name
  | close => inBraces ".end".toList
  | eof => []

end Op

namespace Instruction

def typeName (i : Instruction) : String := i.op.typeName

def source (i : Instruction) : List Char := i.op.source

end Instruction

end JsonTemplate

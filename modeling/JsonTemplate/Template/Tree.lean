import JsonTemplate.Template.Instruction
import JsonTemplate.Text.Quoted

namespace JsonTemplate

open JsonTemplate.Text

mutual

inductive Tree where
  | leaf (place : Position) (l : Leaf)
  | block (place : Position) (o : Opener) (body : List Tree) (tail : Tail)
  | repeated (place : Position) (var : VarName) (body : List Tree) (alternates : Alternates)
      (tail : Tail)
  | macroDef (place : Position) (name : String) (body : List Tree) (close : Option Position)

/-- How a branch ends: not at all, at a closing tag, or where the next branch starts. -/
inductive Tail where
  | unclosed
  | closed (place : Position)
  | or (place : Position) (call : Option Call) (body : List Tree) (tail : Tail)

/-- What a repeated section prints between its rounds. An `.or` after it closes it with a tag of the
same place that the source does not hold. -/
inductive Alternates where
  | none
  | between (place : Position) (body : List Tree) (implied : Option Position)

end

structure Template where
  body : List Tree
  eof : Option Position

namespace Tree

mutual

def source : Tree → List Char
  | leaf _ l => l.source
  | block _ o body tail => o.source ++ sourceAll body ++ sourceTail tail
  | repeated _ var body alternates tail =>
    repeatedSource var ++ sourceAll body ++ sourceAlternates alternates ++ sourceTail tail
  | macroDef _ name body close =>
    macroSource name ++ sourceAll body
      ++ (match close with
        | none => []
        | some _ => Op.close.source)

def sourceAll : List Tree → List Char
  | [] => []
  | t :: rest => source t ++ sourceAll rest

def sourceTail : Tail → List Char
  | .unclosed => []
  | .closed _ => Op.close.source
  | .or _ call body tail => orSource call ++ sourceAll body ++ sourceTail tail

def sourceAlternates : Alternates → List Char
  | .none => []
  | .between _ body _ => Op.alternates.source ++ sourceAll body

end

def outlineText (content : String) : List Char :=
  let chars := content.toList
  "(len=".toList ++ (toString chars.length).toList ++ ") \"".toList ++ showText (chars.take 40)
    ++ (if 40 < chars.length then " ...".toList else []) ++ ['"']

def outlineArgs (args : Arguments) : List Char :=
  if args.isEmpty then []
  else
    " delim='".toList ++ showChar ⟨true, true⟩ args.delimiter ++ "' parsed=[".toList
      ++ joinWith [',', ' '] (args.values.map String.toList) ++ [']']

def outlineCall (call : Call) : List Char := call.name.toList ++ outlineArgs call.args

def indent (depth : Nat) : List Char := List.replicate (2 * depth) ' '

def outlineLeaf (depth : Nat) : Leaf → List Char
  | .text content => ' ' :: outlineText content
  | .output vars formatters =>
    ' ' :: varsSource vars
      ++ formatters.flatMap fun c => '\n' :: indent (depth + 1) ++ '|' :: ' ' :: outlineCall c
  | .bind name vars _ => ' ' :: name.toList ++ " = ".toList ++ varsSource vars
  | .eval program _ => ' ' :: program.listing.toList
  | .includePartial name _ _ => ' ' :: name.toList
  | .comment content _ => ' ' :: outlineText content
  | .object _ _ => []
  | .inject _ _ _ => []
  | .brace _ => []
  | .blank _ => []

def outlineOpener : Opener → List Char
  | .sectionOn var => ' ' :: var.text.toList
  | .predicate call => ' ' :: outlineCall call
  | .ifChain vars ops => ' ' :: chainSource vars ops
  | .ifPredicate call => ' ' :: outlineCall call
  | .ifExpression program => ' ' :: program.listing.toList

def outlineLine (depth : Nat) (typeName : String) (place : Position) (rest : List Char) :
    List Char :=
  indent depth ++ typeName.toList ++ [' ', '{'] ++ (toString place.line).toList ++ ','
    :: (toString place.column).toList ++ '}' :: rest ++ ['\n']

mutual

def outline (depth : Nat) : Tree → List (List Char)
  | leaf place l => [outlineLine depth l.typeName place (outlineLeaf depth l)]
  | block place o body tail =>
    outlineLine depth o.typeName place (outlineOpener o)
      :: (outlineAll (depth + 1) body ++ outlineTail depth tail)
  | repeated place var body alternates tail =>
    outlineLine depth (Op.repeated var).typeName place (' ' :: var.text.toList)
      :: (outlineAll (depth + 1) body ++ outlineAlternates (depth + 1) alternates
        ++ outlineTail depth tail)
  | macroDef place name body close =>
    outlineLine depth (Op.macroStart name).typeName place (' ' :: name.toList)
      :: (outlineAll (depth + 1) body
        ++ (match close with
          | none => []
          | some stop => [outlineLine depth Op.close.typeName stop []]))

def outlineAll (depth : Nat) : List Tree → List (List Char)
  | [] => []
  | t :: rest => outline depth t ++ outlineAll depth rest

def outlineTail (depth : Nat) : Tail → List (List Char)
  | .unclosed => []
  | .closed place => [outlineLine depth Op.close.typeName place []]
  | .or place call body tail =>
    outlineLine depth (Op.or call).typeName place
        (match call with
          | none => []
          | some c => ' ' :: outlineCall c)
      :: (outlineAll (depth + 1) body ++ outlineTail depth tail)

def outlineAlternates (depth : Nat) : Alternates → List (List Char)
  | .none => []
  | .between place body _ =>
    outlineLine depth Op.alternates.typeName place [] :: outlineAll (depth + 1) body

end

end Tree

namespace Template

def source (t : Template) : List Char := Tree.sourceAll t.body

def outline (t : Template) : List Char := (Tree.outlineAll 0 t.body).flatten

end Template

end JsonTemplate

import JsonTemplate.Escape.Html
import JsonTemplate.Escape.Prose
import JsonTemplate.Escape.Uri
import JsonTemplate.Json.Printer
import JsonTemplate.Plugin.Catalog

namespace JsonTemplate

open JsonTemplate.Json JsonTemplate.Number JsonTemplate.Text

inductive CoreFormatter where
  | apply
  | count
  | cycle
  | encodeSpace
  | encodeUri
  | encodeUriComponent
  | format
  | get
  | html
  | htmlattr
  | htmltag
  | iter
  | json
  | jsonPretty
  | keyBy
  | lookup
  | mod
  | output
  | pluralize
  | prop
  | raw
  | round
  | safe
  | slugify
  | smartypants
  | str
  | truncate
  | urlEncode
  deriving Repr, DecidableEq

namespace CoreFormatter

def all : List CoreFormatter :=
  [apply, count, cycle, encodeSpace, encodeUri, encodeUriComponent, format, get, html, htmlattr,
    htmltag, iter, json, jsonPretty, keyBy, lookup, mod, output, pluralize, prop, raw, round, safe,
    slugify, smartypants, str, truncate, urlEncode]

def name : CoreFormatter → String
  | apply => "apply"
  | count => "count"
  | cycle => "cycle"
  | encodeSpace => "encode-space"
  | encodeUri => "encode-uri"
  | encodeUriComponent => "encode-uri-component"
  | format => "format"
  | get => "get"
  | html => "html"
  | htmlattr => "htmlattr"
  | htmltag => "htmltag"
  | iter => "iter"
  | json => "json"
  | jsonPretty => "json-pretty"
  | keyBy => "key-by"
  | lookup => "lookup"
  | mod => "mod"
  | output => "output"
  | pluralize => "pluralize"
  | prop => "prop"
  | raw => "raw"
  | round => "round"
  | safe => "safe"
  | slugify => "slugify"
  | smartypants => "smartypants"
  | str => "str"
  | truncate => "truncate"
  | urlEncode => "url-encode"

end CoreFormatter

structure PluralOptions where
  singular : String
  plural : String
  deriving Repr, DecidableEq

def PluralOptions.ofArguments (args : Arguments) : PluralOptions :=
  match args.accepted, args.values with
  | true, [plural] => ⟨"", plural⟩
  | true, [singular, plural] => ⟨singular, plural⟩
  | _, _ => ⟨"", "s"⟩

structure TruncateOptions where
  limit : Nat
  ellipsis : String
  deriving Repr, DecidableEq

namespace TruncateOptions

def standard : TruncateOptions := ⟨100, "..."⟩

/-- A length is an integer of 32 bits; a negative one counts as zero. -/
def readLimit? (raw : String) : Option Nat :=
  (readInt? (-0x80000000) 0x7fffffff raw.toList).map Int.toNat

def check (args : Arguments) : Except String Unit :=
  match args.get? 0 with
  | none => .ok ()
  | some raw =>
    if (readLimit? raw).isSome then .ok () else .error s!"bad value for length '{raw}'"

def ofArguments (args : Arguments) : TruncateOptions :=
  if args.accepted then
    ⟨((args.get? 0).bind readLimit?).getD standard.limit, (args.get? 1).getD standard.ellipsis⟩
  else standard

end TruncateOptions

namespace Node

def textOrEmpty (node : Node) : String := if node.isNull then "" else node.asText

def jsonText : Node → List Char
  | missing => []
  | nonFinite x => (formatNumber x.toDouble).toList
  | value v => v.compactChars

def atName (node : Node) (name : VarName) : Node :=
  match name.segments with
  | none => node
  | some path => node.follow path

/-- The node one step down by the value of a key: a number is an index, a text a name. Any other key
leads nowhere else. -/
def stepBy (node key : Node) : Node :=
  if key.isNumber then
    if key.asInt64 < 0 then .missing else node.step (.index key.asInt64.toNat)
  else
    match key.asString? with
    | some name => node.step (.key name)
    | none => node

def descend (node key : Node) : Node :=
  match key with
  | value (.array keys) =>
    keys.foldl
      (fun n k =>
        if (value k).isNumber || (value k).asString?.isSome then n.stepBy (value k) else n)
      node
  | _ => node.stepBy key

def length : Node → Nat
  | value (.string s) => s.length
  | node => node.size

end Node

/-- A text with the values put in place of the numbers in braces. Anything else in braces is left
out, and so is what follows a brace that is never closed. -/
def substitute (values : List String) : List Char → List Char
  | pattern => outside pattern
where
  outside : List Char → List Char
    | [] => []
    | c :: rest => if c = '\x7b' then slot 0 rest else c :: outside rest
  slot (n : Nat) : List Char → List Char
    | [] => []
    | c :: rest =>
      if c.isDigit then slot (n * 10 + (c.toNat - '0'.toNat)) rest
      else if c = '\x7d' then (values.getD n "").toList ++ outside rest
      else skip rest
  skip : List Char → List Char
    | [] => []
    | c :: rest => if c = '\x7d' then outside rest else skip rest

namespace CoreFormatter

/-- Follows the values of variables down from a node, until one of them or the node is missing. -/
def follow (lookup : VarName → Node) : Node → List String → Node
  | node, [] => node
  | node, arg :: rest =>
    let key := lookup (.parse arg.toList)
    if key.isMissing then .missing
    else
      let next := node.descend key
      if next.isMissing then .missing else follow lookup next rest

/-- An object of the items of an array, each under the text at a path in it. Items without that path
are left out. -/
def keyedBy (path : String) (node : Node) : List (String × Value) :=
  match node with
  | .value (.array items) =>
    if path = "" then []
    else
      Value.ofMembers (items.filterMap fun item =>
        let key := (Node.value item).atName (.parse path.toList)
        if key.isMissing then none else some (key.asText, item))
  | _ => []

/-- The argument at a position counted from one, around and around. -/
def cycled (args : Arguments) (node : Node) : Node :=
  if args.isEmpty then .missing
  else .text ((args.get? (Double.saturate (node.asInt64 - 1) % args.count).toNat).getD "")

def modulo (args : Arguments) (node : Node) : Except Failure Node :=
  let divisor := ((args.get? 0).bind fun raw => readInt64? raw.toList).getD 2
  if divisor = 0 then .error (.plugin "mod" "division by zero")
  else .ok (.ofDouble (Double.ofInt (node.asInt64.tmod divisor)))

def rounded (node : Node) : Node :=
  let x := node.asDouble
  .ofDouble (if x.isNaN then 0 else (x + 0.5).floor)

def onText (f : List Char → List Char) (text : String) : Node :=
  .text (String.ofList (f text.toList))

def compute (f : CoreFormatter) (lookup : VarName → Node) (args : Arguments) (node : Node) :
    Except Failure Node :=
  match f with
  | apply => .ok node
  | count => .ok (.ofDouble (Double.ofInt node.length))
  | cycle => .ok (cycled args node)
  | encodeSpace => .ok (onText Escape.encodeSpace node.asText)
  | encodeUri => .ok (onText Escape.encodeUri node.asText)
  | encodeUriComponent => .ok (onText Escape.encodeUriComponent node.asText)
  | format =>
    let values := args.values.map fun raw => (lookup (.parse raw.toList)).asText
    .ok (onText (substitute values) node.asText)
  | get => .ok (follow lookup node args.values)
  | html => .ok (onText Escape.html node.textOrEmpty)
  | htmlattr => .ok (onText Escape.htmlAttribute node.textOrEmpty)
  | htmltag => .ok (onText Escape.htmlAttribute node.textOrEmpty)
  | iter => .ok (.text (lookup (.parse "@index".toList)).asText)
  | json => .ok (.text (String.ofList (Escape.scriptTags node.jsonText)))
  | jsonPretty => .ok (onText Escape.scriptTags node.toValue.pretty)
  | keyBy => .ok (.value (.object (keyedBy args.first node)))
  | CoreFormatter.lookup =>
    let field := (lookup (.parse args.first.toList)).asText
    .ok (lookup (.parse field.toList))
  | mod => modulo args node
  | output => .ok (.text (" ".intercalate args.values))
  | pluralize =>
    let options := PluralOptions.ofArguments args
    .ok (.text (if node.asInt64 = 1 then options.singular else options.plural))
  | prop => .ok (args.values.foldl (fun n raw => n.atName (.parse raw.toList)) node)
  | raw => .ok (.text (String.ofList node.jsonText))
  | round => .ok (rounded node)
  | safe => .ok (if node.isTruthy then onText Escape.stripTags node.asText else node)
  | slugify => .ok (onText Escape.slugify node.textOrEmpty)
  | smartypants => .ok (onText Escape.smartypants node.textOrEmpty)
  | str => .ok (.text node.textOrEmpty)
  | truncate =>
    let options := TruncateOptions.ofArguments args
    .ok (onText (Escape.truncate options.limit options.ellipsis.toList) node.asText)
  | urlEncode => .ok (onText Escape.urlEncode node.asText)

def counting (requiresArgs : Bool) (count : Arguments → Except Arguments.CountError Unit) :
    Signature :=
  ⟨requiresArgs, fun args => (count args).mapError Arguments.CountError.message⟩

def anyArguments : Signature := ⟨false, fun _ => .ok ()⟩

def signature : CoreFormatter → Signature
  | apply => counting true (·.atLeast 1)
  | cycle => counting true (·.atLeast 1)
  | keyBy => counting true (·.exactly 1)
  | CoreFormatter.lookup => counting true (·.exactly 1)
  | pluralize => counting false (·.between 0 2)
  | truncate => ⟨false, TruncateOptions.check⟩
  | _ => anyArguments

def transform (f : CoreFormatter) : Transform :=
  match f with
  | apply => .applyPartial
  | _ => .compute f.compute

def toFormatter (f : CoreFormatter) : Formatter := ⟨f.signature, f.transform⟩

end CoreFormatter

end JsonTemplate

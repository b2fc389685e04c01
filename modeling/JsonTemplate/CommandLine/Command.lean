
namespace JsonTemplate

inductive Switch where
  | safe
  | stats
  | tree
  | validate
  | preprocess
  | enableInclude
  | help
  deriving Repr, DecidableEq

inductive FileOption where
  | json
  | partials
  deriving Repr, DecidableEq

inductive CommandPart where
  | switch (s : Switch)
  | file (o : FileOption) (path : String)
  | template (path : String)
  deriving Repr, DecidableEq

inductive UsageError where
  | unknownOption (word : String)
  | missingFile (o : FileOption)
  | unexpectedValue (s : Switch)
  | repeated (word : String)
  | missingTemplate
  | extraTemplate (path : String)
  deriving Repr, DecidableEq

structure Command where
  template : String
  json : Option String
  partials : Option String
  switches : List Switch
  deriving Repr, DecidableEq

namespace Switch

def word : Switch → String
  | safe => "--safe"
  | stats => "--stats"
  | tree => "--tree"
  | validate => "--validate"
  | preprocess => "--preprocess"
  | enableInclude => "--enable-include"
  | help => "--help"

def all : List Switch := [safe, stats, tree, validate, preprocess, enableInclude, help]

def ofLetter? : Char → Option Switch
  | 's' => some stats
  | 't' => some tree
  | 'h' => some help
  | _ => none

end Switch

namespace FileOption

def word : FileOption → String
  | json => "--json"
  | partials => "--partials"

def all : List FileOption := [json, partials]

def ofLetter? : Char → Option FileOption
  | 'j' => some json
  | 'p' => some partials
  | _ => none

end FileOption

namespace UsageError

def message : UsageError → String
  | unknownOption word => s!"unexpected argument '{word}'"
  | missingFile o => s!"'{o.word} FILE' needs a file"
  | unexpectedValue s => s!"'{s.word}' takes no value"
  | repeated word => s!"'{word}' cannot be used more than once"
  | missingTemplate => "a template is needed"
  | extraTemplate path => s!"unexpected argument '{path}'"

end UsageError

namespace CommandPart

/-- What one word says: parts of the command, or parts and an option whose file is the next word. -/
inductive Word where
  | parts (ps : List CommandPart)
  | pending (ps : List CommandPart) (o : FileOption)

def Word.cons (p : CommandPart) : Word → Word
  | parts ps => parts (p :: ps)
  | Word.pending ps o => Word.pending (p :: ps) o

def withFile (o : FileOption) (path : List Char) : Except UsageError Word :=
  if path.isEmpty then .error (.missingFile o) else .ok (.parts [file o (String.ofList path)])

def readLetters : List Char → Except UsageError Word
  | [] => .ok (.parts [])
  | c :: rest =>
    match Switch.ofLetter? c, FileOption.ofLetter? c with
    | some s, _ =>
      if rest.head? = some '=' then .error (.unexpectedValue s)
      else (readLetters rest).map (Word.cons (switch s))
    | none, some o =>
      match rest with
      | [] => .ok (Word.pending [] o)
      | '=' :: path => withFile o path
      | path => withFile o path
    | none, none => .error (.unknownOption (String.ofList ['-', c]))

def readLong (text : List Char) : Except UsageError Word :=
  let name := String.ofList (text.takeWhile (· ≠ '='))
  let value? := if text.contains '=' then some ((text.dropWhile (· ≠ '=')).drop 1) else none
  match Switch.all.find? (·.word = name), FileOption.all.find? (·.word = name), value? with
  | some s, _, none => .ok (.parts [switch s])
  | some s, _, some _ => .error (.unexpectedValue s)
  | none, some o, none => .ok (Word.pending [] o)
  | none, some o, some path => withFile o path
  | none, none, _ => .error (.unknownOption name)

def readWord (word : String) : Except UsageError Word :=
  match word.toList with
  | '-' :: '-' :: _ => readLong word.toList
  | '-' :: c :: rest => readLetters (c :: rest)
  | _ => .ok (.parts [template word])

/-- Whether a word cannot be the file of an option before it. -/
def looksLikeOption (word : String) : Bool := word.startsWith "-" && word ≠ "-"

def ofWords : List String → Except UsageError (List CommandPart)
  | [] => .ok []
  | word :: rest =>
    if word = "--" then .ok (rest.map template)
    else
      match readWord word with
      | .error e => .error e
      | .ok (.parts ps) => (ofWords rest).map (ps ++ ·)
      | .ok (Word.pending ps o) =>
        match rest with
        | [] => .error (.missingFile o)
        | path :: others =>
          if looksLikeOption path then .error (.missingFile o)
          else (ofWords others).map fun more => ps ++ file o path :: more

end CommandPart

namespace Command

def filesOf (o : FileOption) (parts : List CommandPart) : List String :=
  parts.filterMap fun
    | .file p path => if p = o then some path else none
    | _ => none

def templatesOf (parts : List CommandPart) : List String :=
  parts.filterMap fun
    | .template path => some path
    | _ => none

def switchesOf (parts : List CommandPart) : List Switch :=
  parts.filterMap fun
    | .switch s => some s
    | _ => none

def repeated? (parts : List CommandPart) : Option String :=
  let switches := switchesOf parts
  match Switch.all.find? fun s => 1 < switches.count s with
  | some s => some s.word
  | none => (FileOption.all.find? fun o => 1 < (filesOf o parts).length).map FileOption.word

def ofWords (words : List String) : Except UsageError Command := do
  let parts ← CommandPart.ofWords words
  match repeated? parts, templatesOf parts with
  | some word, _ => .error (.repeated word)
  | none, [] =>
    if (switchesOf parts).contains .help then .ok ⟨"", none, none, [.help]⟩
    else .error .missingTemplate
  | none, [template] =>
    .ok ⟨template, (filesOf .json parts).head?, (filesOf .partials parts).head?, switchesOf parts⟩
  | none, _ :: extra :: _ => .error (.extraTemplate extra)

def has (c : Command) (s : Switch) : Bool := c.switches.contains s

def files (c : Command) : List String := c.template :: (c.json.toList ++ c.partials.toList)

end Command

end JsonTemplate

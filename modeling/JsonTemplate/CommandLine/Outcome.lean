import JsonTemplate.CommandLine.Command
import JsonTemplate.Execution.Run
import JsonTemplate.Json.Printer
import JsonTemplate.Json.Reader
import JsonTemplate.Plugin.Core
import JsonTemplate.Template.Report

namespace JsonTemplate

open JsonTemplate.Json

inductive FileError where
  | notFound
  | denied
  | notDirectory
  | isDirectory
  | notText
  | other (message : String)
  deriving Repr, DecidableEq

def FileError.message : FileError → String
  | notFound => "No such file or directory (os error 2)"
  | denied => "Permission denied (os error 13)"
  | notDirectory => "Not a directory (os error 20)"
  | isDirectory => "Is a directory (os error 21)"
  | notText => "stream did not contain valid UTF-8"
  | other message => message

abbrev Files := String → Except FileError String

structure Outcome where
  status : Nat
  stdout : String
  stderr : String
  deriving Repr, DecidableEq

inductive CommandError where
  | template (path : String) (e : FileError)
  | file (path : String) (e : FileError)
  | json (path : String) (e : ReadError)
  | partialsNotObject (path : String)
  | problem (d : Diagnostic)

def CommandError.message : CommandError → String
  | template path e => s!"failed to read template {path}: {e.message}"
  | file path e => s!"failed to read {path}: {e.message}"
  | json path e => s!"invalid JSON in {path}: {e.message}"
  | partialsNotObject path => s!"partials file {path} must hold a JSON object"
  | problem d => d.fullMessage

namespace Command

def lines (problems : List Diagnostic) : String :=
  String.join (problems.map fun d => d.fullMessage ++ "\n")

def statusOf (problems : List Diagnostic) : Nat := if problems.isEmpty then 0 else 1

def readJson (files : Files) (path : String) : Except CommandError Value := do
  let text ← (files path).mapError (.file path)
  (Value.readDocument text).mapError (.json path)

def readData (files : Files) : Option String → Except CommandError Value
  | none => .ok (.object [])
  | some path => readJson files path

def readPartials (files : Files) : Option String → Except CommandError Partials
  | none => .ok .none
  | some path => do
    match ← readJson files path with
    | .object members => .ok (.ofJson (.object members))
    | _ => .error (.partialsNotObject path)

def compile (c : Command) (lenient : Bool) (source : String) : Except CommandError Compiled :=
  (Compiled.compile Catalog.core.vocabulary ⟨lenient, c.has .preprocess, .unlimited⟩
    source.toList).mapError .problem

def validate (c : Command) (source : String) : Except CommandError Outcome := do
  let compiled ← c.compile true source
  .ok ⟨statusOf compiled.problems, lines compiled.problems, ""⟩

def inspect (c : Command) (source : String) : Except CommandError Outcome := do
  let compiled ← c.compile false source
  let tree := if c.has .tree then String.ofList compiled.template.outline else ""
  let report := Report.ofTemplate Catalog.core.vocabulary compiled.template
  let stats := if c.has .stats then report.toValue.pretty ++ "\n" else ""
  .ok ⟨0, tree ++ stats, ""⟩

def execute (c : Command) (files : Files) (source : String) : Except CommandError Outcome := do
  let data ← readData files c.json
  let partials ← readPartials files c.partials
  let compiled ← c.compile (c.has .safe) source
  let options : RunOptions :=
    { RunOptions.strict with safe := c.has .safe, includes := c.has .enableInclude, partials }
  match (Context.start options none (.value data)).run .core compiled.template with
  | (.error d, _) => .error (.problem d)
  | (.ok (), ctx) =>
    let problems := compiled.problems ++ ctx.problems
    .ok ⟨statusOf problems, ctx.output, lines problems⟩

def perform (c : Command) (files : Files) : Except CommandError Outcome := do
  let source ← (files c.template).mapError (.template c.template)
  if c.has .validate then c.validate source
  else if c.has .stats || c.has .tree then c.inspect source
  else c.execute files source

def usage : String :=
  "Usage: [OPTIONS] <TEMPLATE>\n\n"
    ++ "Options:\n"
    ++ "  -j, --json <FILE>      JSON file to execute the template against\n"
    ++ "  -p, --partials <FILE>  JSON object file mapping partial names to template source\n"
    ++ "      --safe             Collect execution errors instead of stopping at the first one\n"
    ++ "  -s, --stats            Print the reference report instead of executing\n"
    ++ "  -t, --tree             Print the instruction tree instead of executing\n"
    ++ "      --validate         List syntax errors instead of executing\n"
    ++ "      --preprocess       Only expand tags with a caret, passing everything else through\n"
    ++ "      --enable-include   Allow templates to include partials\n"
    ++ "  -h, --help             Print help\n"

def outcome (c : Command) (files : Files) : Outcome :=
  if c.has .help then ⟨0, usage, ""⟩
  else
    match c.perform files with
    | .ok o => o
    | .error e => ⟨1, "", s!"error: {e.message}\n"⟩

/-- Reads a command and performs it. Words that are no command have a status of their own. -/
def run (files : Files) (words : List String) : Outcome :=
  match ofWords words with
  | .ok c => c.outcome files
  | .error e => ⟨2, "", s!"error: {e.message}\n\n{usage}"⟩

end Command

end JsonTemplate

import JsonTemplate.Execution.Step

namespace JsonTemplate

open JsonTemplate.Text

/-- The name and message of a failure that its instruction has to report. -/
def Failure.unexpected? : Failure → Option (String × String)
  | .plugin name message => some (name, message)
  | .problem d =>
    if d.isRun .generalError then some (d.name.getD d.fault.code, d.data.getD d.detail) else none

namespace Step

def unexpected (place : Position) (source : List Char) (name message : String) : Diagnostic :=
  (((Diagnostic.run .unexpectedError place).withName name).withData message).withSource
    (String.ofList source)

/-- Logs a report and ends with it; a safe run notes it and goes on. -/
def report (d : Diagnostic) : Step Unit := do
  modify fun ctx => { ctx with logged := ctx.logged ++ [d] }
  refuse d

/-- What becomes of a failed instruction: the frames it left are removed, and an unexpected failure
is reported. -/
def recover (place : Position) (source : List Char) (depth : Nat) (f : Failure) : Step Unit := do
  modify fun ctx => { ctx with frames := ctx.frames.truncate depth }
  match f.unexpected? with
  | none => fail f
  | some (name, message) => report (unexpected place source name message)

def rescue (action : Step Unit) (handle : Failure → Step Unit) : Step Unit := fun ctx =>
  match action ctx with
  | (.ok (), after) => (.ok (), after)
  | (.error f, after) => handle f after

def located (place : Position) (action : Step Unit) : Step Unit := fun ctx =>
  thenAlways action (fun after => { after with place := ctx.place }) { ctx with place }

def instruction (place : Position) (source : List Char) (action : Step Unit) : Step Unit :=
  fun ctx => located place (rescue (do count; action) (recover place source ctx.depth)) ctx

/-- Executes the code of a whole template. It counts as an instruction without a place or source. -/
def whole (action : Step Unit) : Step Unit := fun ctx => instruction ctx.place [] action ctx

end Step

end JsonTemplate

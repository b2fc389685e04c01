import JsonTemplate.Execution.Context

namespace JsonTemplate

inductive Failure where
  | problem (d : Diagnostic)
  /-- A formatter or predicate fails with a message of its own. -/
  | plugin (name message : String)

def Step (α : Type) := Context → Except Failure α × Context

namespace Step

variable {α β : Type}

def value (a : α) : Step α := fun ctx => (.ok a, ctx)

def andThen (first : Step α) (next : α → Step β) : Step β := fun ctx =>
  match first ctx with
  | (.ok a, ctx) => next a ctx
  | (.error f, ctx) => (.error f, ctx)

instance : Monad Step where
  pure := value
  bind := andThen

def fail (f : Failure) : Step α := fun ctx => (.error f, ctx)

def read (f : Context → α) : Step α := fun ctx => (.ok (f ctx), ctx)

def modify (f : Context → Context) : Step Unit := fun ctx => (.ok (), f ctx)

def ofExcept (result : Except Failure α) : Step α := fun ctx => (result, ctx)

/-- Ends with a problem; a safe run notes it and goes on. -/
def refuse (d : Diagnostic) : Step Unit := fun ctx =>
  if ctx.options.safe then (.ok (), ctx.note d) else (.error (.problem d), ctx)

def count : Step Unit := fun ctx =>
  match ctx.limiter with
  | none => (.ok (), ctx)
  | some limiter =>
    match limiter.check with
    | (limiter, none) => (.ok (), { ctx with limiter := some limiter })
    | (limiter, some d) =>
      (.error (.problem { d with place := ctx.place }), { ctx with limiter := some limiter })

def thenAlways (action : Step α) (change : Context → Context) : Step α := fun ctx =>
  let (result, after) := action ctx
  (result, change after)

def within (node : Node) (inside : Step α) : Step α := do
  modify (Context.enter node)
  let a ← inside
  modify Context.pop
  pure a

end Step

end JsonTemplate

import JsonTemplate.Execution.Run
import JsonTemplate.Proofs.Expr.Reduce

namespace JsonTemplate

namespace Context

/-- A state after steps that note, print, bind, count and log. -/
inductive Advances (before : Context) : Context → Prop where
  | refl : Advances before before
  | note (d : Diagnostic) {after : Context} : Advances before after → Advances before (after.note d)
  | write (text : String) {after : Context} :
      Advances before after → Advances before (after.write text)
  | setVar (name : String) (node : Node) {after : Context} :
      Advances before after → Advances before (after.setVar name node)
  | count {limiter : Limiter} {after : Context} : Advances before after →
      after.limiter = some limiter →
        Advances before { after with limiter := some limiter.check.1 }
  | log (d : Diagnostic) {after : Context} : Advances before after →
      Advances before { after with logged := after.logged ++ [d] }

def cut (depth : Nat) (ctx : Context) : Context :=
  { ctx with frames := ctx.frames.truncate depth }

theorem Advances.trans {before middle after : Context} (first : before.Advances middle)
    (second : middle.Advances after) : before.Advances after := by
  induction second with
  | refl => exact first
  | note d _ ih => exact ih.note d
  | write text _ ih => exact ih.write text
  | setVar name node _ ih => exact ih.setVar name node
  | count _ limited ih => exact ih.count limited
  | log d _ ih => exact ih.log d

theorem foldl_note_advances {β : Type} (f : Context → β → Diagnostic) (found : List β)
    (ctx : Context) : ctx.Advances (found.foldl (fun ctx b => ctx.note (f ctx b)) ctx) := by
  induction found generalizing ctx with
  | nil => exact .refl
  | cons b rest ih => exact (Advances.note (f ctx b) .refl).trans (ih _)

theorem noteFaulty_advances (name : String) (problems : List Diagnostic) (ctx : Context) :
    ctx.Advances (ctx.noteFaulty name problems) := by
  unfold noteFaulty
  split
  · exact .refl
  · exact .note _ .refl

/-- The state after a partial has been compiled. -/
def compiledOnce (ctx : Context) : Context := { ctx with compileCount := ctx.compileCount + 1 }

def keep (name : String) (body : List Tree) (ctx : Context) : Context :=
  { ctx with compiled := ctx.compiled.set name body }

/-- What a search for a partial comes to. -/
inductive Finds (c : Catalog) (name : String) (ctx : Context) :
    Except Diagnostic (Option (List Tree)) × Context → Prop where
  | defined (body : List Tree) : ctx.frames.macro? name = some body →
      Finds c name ctx (.ok (some body), ctx)
  | kept (body : List Tree) : ctx.compiled.get? name = some body →
      Finds c name ctx (.ok (some body), ctx)
  | missing : Finds c name ctx (.ok none, ctx)
  | faulty {source : String} {d : Diagnostic} : ctx.options.partials.get? name = some source →
      compileSource c ctx.options source = .error d →
        Finds c name ctx (.error d, ctx.compiledOnce)
  | compiled {source : String} {compiled : Compiled} :
      ctx.options.partials.get? name = some source →
        compileSource c ctx.options source = .ok compiled →
          Finds c name ctx (.ok (some compiled.template.body),
            (ctx.compiledOnce.noteFaulty name compiled.problems).keep name compiled.template.body)

theorem findPartial_finds (c : Catalog) (name : String) (ctx : Context) :
    Finds c name ctx (ctx.findPartial c name) := by
  unfold findPartial
  split
  · exact .defined _ ‹_›
  · split
    · exact .kept _ ‹_›
    · split
      · exact .missing
      · dsimp only
        split
        · exact .faulty ‹_› ‹_›
        · exact .compiled ‹_› ‹_›

section

variable {c : Catalog} {name source : String} {x : Context} {body : List Tree}
  {compiled : Compiled} {d : Diagnostic}

theorem find_defined (defined : x.frames.macro? name = some body) :
    x.findPartial c name = (.ok (some body), x) := by
  simp [findPartial, defined]

variable (undefined : x.frames.macro? name = none)

include undefined

theorem find_kept (kept : x.compiled.get? name = some body) :
    x.findPartial c name = (.ok (some body), x) := by
  simp [findPartial, undefined, kept]

variable (fresh : x.compiled.get? name = none)

include fresh

theorem find_missing (missing : x.options.partials.get? name = none) :
    x.findPartial c name = (.ok none, x) := by
  simp [findPartial, undefined, fresh, missing]

theorem find_faulty (found : x.options.partials.get? name = some source)
    (faulty : compileSource c x.options source = .error d) :
    x.findPartial c name = (.error d, x.compiledOnce) := by
  simp [findPartial, undefined, fresh, found, faulty, compiledOnce]

theorem find_compiled (found : x.options.partials.get? name = some source)
    (ok : compileSource c x.options source = .ok compiled) :
    x.findPartial c name = (.ok (some compiled.template.body),
      (x.compiledOnce.noteFaulty name compiled.problems).keep name compiled.template.body) := by
  simp only [findPartial, undefined, fresh, found, ok]
  rfl

end

end Context

namespace Step

theorem bind_ok {α β : Type} {s : Step α} {k : α → Step β} {ctx after : Context} {a : α}
    (h : s ctx = (.ok a, after)) : (s >>= k) ctx = k a after := by
  simp only [Bind.bind, andThen, h]

theorem bind_error {α β : Type} {s : Step α} {k : α → Step β} {ctx after : Context} {f : Failure}
    (h : s ctx = (.error f, after)) : (s >>= k) ctx = (.error f, after) := by
  simp only [Bind.bind, andThen, h]

theorem within_ok {α : Type} {node : Node} {s : Step α} {ctx after : Context} {a : α}
    (h : s (ctx.enter node) = (.ok a, after)) : within node s ctx = (.ok a, after.pop) :=
  (bind_ok rfl).trans (bind_ok h)

theorem within_error {α : Type} {node : Node} {s : Step α} {ctx after : Context} {f : Failure}
    (h : s (ctx.enter node) = (.error f, after)) : within node s ctx = (.error f, after) :=
  (bind_ok rfl).trans (bind_error h)

theorem refuse_advances (d : Diagnostic) (ctx : Context) : ctx.Advances (refuse d ctx).2 := by
  unfold refuse
  split
  · exact .note d .refl
  · exact .refl

theorem count_none {ctx : Context} (h : ctx.limiter = none) : count ctx = (.ok (), ctx) := by
  rw [count, h]

def verdict (place : Text.Position) : Option Diagnostic → Except Failure Unit
  | none => .ok ()
  | some d => .error (.problem { d with place })

theorem count_some {ctx : Context} {l : Limiter} (h : ctx.limiter = some l) :
    count ctx = (verdict ctx.place l.check.2, { ctx with limiter := some l.check.1 }) := by
  rw [count, h]
  dsimp only
  rcases l.check with ⟨next, _ | d⟩ <;> rfl

theorem count_advances (ctx : Context) : ctx.Advances (count ctx).2 := by
  cases limited : ctx.limiter with
  | none =>
    rw [count_none limited]
    exact .refl
  | some limiter =>
    rw [count_some limited]
    exact .count .refl limited

theorem count_state (ctx : Context) : ∃ limiter, (count ctx).2 = { ctx with limiter } := by
  cases limited : ctx.limiter with
  | none =>
    rw [count_none limited]
    exact ⟨none, by rw [← limited]⟩
  | some limiter =>
    rw [count_some limited]
    exact ⟨_, rfl⟩

theorem count_begun {ctx begun : Context} (h : count ctx = (.ok (), begun)) :
    ∃ limiter, begun = { ctx with limiter } := by
  have state := count_state ctx
  rwa [h] at state

theorem test_advances (c : Catalog) (call : Call) (ctx : Context) :
    ctx.Advances (c.test call ctx).2 := by
  unfold Catalog.test
  split <;> exact .refl

def assignAll (vars : Bindings Node) (ctx : Context) : Context :=
  vars.foldr (fun (name, node) ctx => ctx.setVar name node) ctx

theorem assignAll_advances (vars : Bindings Node) (ctx : Context) :
    ctx.Advances (assignAll vars ctx) := by
  induction vars with
  | nil => exact .refl
  | cons var rest ih => exact ih.setVar var.1 var.2

theorem noteProblems_advances (program : Program) (ctx : Context) :
    ctx.Advances (noteProblems program ctx).2 := Context.foldl_note_advances _ program.problems ctx

theorem evaluate_advances (program : Program) (ctx : Context) :
    ctx.Advances (evaluate program ctx).2 := by
  let scope := evaluationScope program.source
  have related : scope.Related scope fun e f => e = f ∧ ctx.Advances e.context :=
    { lookup := fun _ ⟨same, _⟩ => by rw [same]
      assign := fun name v ⟨same, kept⟩ => ⟨by rw [same], kept.setVar name _⟩
      report := fun message ⟨same, kept⟩ => ⟨by rw [same], kept.note _⟩ }
  exact (program.reduce_related related (s := ⟨ctx, 0⟩) ⟨rfl, .refl⟩).2.2

theorem report_advances (d : Diagnostic) (ctx : Context) : ctx.Advances (report d ctx).2 :=
  (Context.Advances.log d .refl).trans (refuse_advances d _)

theorem recover_eq (place : Text.Position) (source : List Char) (depth : Nat) (f : Failure)
    (ctx : Context) : recover place source depth f ctx = (match f.unexpected? with
      | none => fail f
      | some (name, message) => report (unexpected place source name message) : Step Unit)
      (ctx.cut depth) := bind_ok rfl

theorem recover_advances (place : Text.Position) (source : List Char) (depth : Nat) (f : Failure)
    (ctx : Context) : (ctx.cut depth).Advances (recover place source depth f ctx).2 := by
  rw [recover_eq]
  cases f.unexpected? with
  | none => exact .refl
  | some told => exact report_advances _ _

theorem obtainPartial_eq (c : Catalog) (missing faulty : RunFault) (name : String) (ctx : Context) :
    obtainPartial c missing faulty name ctx =
      match ctx.findPartial c name with
      | (.ok (some body), after) => (.ok (some body), after)
      | (.ok none, after) =>
        ((refuse ((after.problem missing).withName name) after).1.map fun () => none,
          (refuse ((after.problem missing).withName name) after).2)
      | (.error d, after) =>
        (.error (.problem ((((after.problem faulty).withName name).withData d.message).withCauses
          [d])), after) := by
  rcases outcome : ctx.findPartial c name with ⟨d | _ | body, after⟩
  · simp only [obtainPartial, Bind.bind, andThen, outcome]
    rfl
  · simp only [obtainPartial, Bind.bind, andThen, read, outcome]
    rcases refuse ((after.problem missing).withName name) after with ⟨f | u, noted⟩ <;> rfl
  · simp only [obtainPartial, Bind.bind, andThen, outcome]
    rfl

theorem obtainPartial_advances (c : Catalog) (missing faulty : RunFault) (name : String)
    (ctx : Context) :
    (ctx.findPartial c name).2.Advances (obtainPartial c missing faulty name ctx).2 := by
  rw [obtainPartial_eq]
  rcases ctx.findPartial c name with ⟨d | _ | body, after⟩
  · exact .refl
  · exact refuse_advances _ after
  · exact .refl

theorem compute_eq (f : Context → Except Failure Node) (vars : Variables) (ctx : Context) :
    (do let result ← read f
        let node ← ofExcept result
        pure (vars.setFirst node) : Step Variables) ctx =
      ((f ctx).map fun node => vars.setFirst node, ctx) := by
  simp only [Bind.bind, andThen, read, ofExcept]
  cases f ctx <;> rfl

section

variable {place : Text.Position} {source : List Char} {s : Step Unit} {ctx after : Context}

theorem instruction_ok (h : (do count; s : Step Unit) { ctx with place } = (.ok (), after)) :
    instruction place source s ctx = (.ok (), { after with place := ctx.place }) := by
  simp only [instruction, located, thenAlways, rescue, h]

theorem instruction_error {f : Failure}
    (h : (do count; s : Step Unit) { ctx with place } = (.error f, after)) :
    instruction place source s ctx =
      ((recover place source ctx.depth f after).1,
        { (recover place source ctx.depth f after).2 with place := ctx.place }) := by
  simp only [instruction, located, thenAlways, rescue, h]

theorem instruction_congr {t : Step Unit}
    (same : ∀ begun, count { ctx with place } = (.ok (), begun) → s begun = t begun) :
    instruction place source s ctx = instruction place source t ctx := by
  have counted : (do count; s : Step Unit) { ctx with place } =
      (do count; t : Step Unit) { ctx with place } := by
    rcases outcome : count { ctx with place } with ⟨f | u, begun⟩
    · exact (bind_error outcome).trans (bind_error outcome).symm
    · rw [bind_ok outcome, bind_ok outcome]
      exact same begun outcome
  simp only [instruction, located, thenAlways, rescue, counted]

end

section

variable {α : Type} {name : String} {s : Step α} {ctx : Context}

theorem exitPartial_active (h : ctx.active.contains name = false) :
    (name :: ctx.active).filter (· ≠ name) = ctx.active := by
  have absent : name ∉ ctx.active := by simpa using h
  rw [List.filter_cons_of_neg (by simp), List.filter_eq_self]
  intro other member
  exact decide_eq_true fun same => absent (same ▸ member)

theorem asPartial_refused (h : ctx.active.contains name = true) :
    asPartial name s ctx =
      ((refuse ((ctx.problem .applyPartialRecursion).withName name) ctx).1.map fun () => none,
        (refuse ((ctx.problem .applyPartialRecursion).withName name) ctx).2) := by
  simp only [asPartial, enterPartial, Bind.bind, andThen, h, if_true]
  rcases refuse ((ctx.problem .applyPartialRecursion).withName name) ctx with ⟨f | u, after⟩ <;> rfl

theorem asPartial_entered (h : ctx.active.contains name = false) :
    asPartial name s ctx =
      ((s { ctx with active := name :: ctx.active }).1.map some,
        (s { ctx with active := name :: ctx.active }).2.exitPartial name) := by
  have entered : enterPartial name ctx = (.ok true, { ctx with active := name :: ctx.active }) := by
    rw [enterPartial, if_neg (by rw [h]; nofun)]
  rw [asPartial, bind_ok entered]
  simp only [if_true, Bind.bind, andThen, thenAlways]
  rcases s { ctx with active := name :: ctx.active } with ⟨f | a, after⟩ <;> rfl

end

end Step

namespace Context

/-- The outcome of a whole template, from the outcome of its code. -/
def conclude : Except Failure Unit × Context → Except Diagnostic Unit × Context
  | (.ok (), after) => (.ok (), after)
  | (.error (.problem d), after) => (.error d, after)
  | (.error (.plugin name message), after) =>
    (.error (((after.problem .unexpectedError).withName name).withData message), after)

theorem run_eq_conclude (c : Catalog) (t : Template) (ctx : Context) :
    ctx.run c t = conclude (Step.runBody c t.body ctx) := rfl

theorem conclude_state (outcome : Except Failure Unit × Context) :
    (conclude outcome).2 = outcome.2 := by
  rcases outcome with ⟨(d | ⟨name, message⟩) | u, after⟩ <;> rfl

theorem run_state (c : Catalog) (t : Template) (ctx : Context) :
    (ctx.run c t).2 = (Step.runBody c t.body ctx).2 := by
  rw [run_eq_conclude, conclude_state]

end Context

end JsonTemplate

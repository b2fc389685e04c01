import JsonTemplate.Proofs.Execution.Manner

namespace JsonTemplate

open JsonTemplate.Text

namespace Step

variable {α β : Type}

/-- Reports a failed call, once to the log and in a safe run once among the problems. A safe run
then gives up the instruction; in a strict run the report is the failure from here on. -/
def tell (place : Position) (source : List Char) (name message : String) (after : Context) :
    Except Failure α × Context :=
  let d : Diagnostic :=
    { fault := .run .unexpectedError, place, source := some (String.ofList source),
      name := some name, data := some message, typeName := none, limit := none, causes := [] }
  if after.options.safe then
    (.error (.plugin name message),
      { after with logged := after.logged ++ [d], problems := after.problems ++ [d] })
  else (.error (.problem d), { after with logged := after.logged ++ [d] })

/-- What a failed call of an instruction ends with. A plugin is reported by its name and message, a
general error by its own name and data as far as it has them. Other problems are deliberate. -/
def announced (place : Position) (source : List Char) (f : Failure) (after : Context) :
    Except Failure α × Context :=
  match f with
  | .plugin name message => tell place source name message after
  | .problem d =>
    if d.fault = .run .generalError then
      tell place source (d.name.getD "GENERAL_ERROR")
        (d.data.getD ("Default error " ++ d.name.getD "???" ++ ": " ++ "???")) after
    else (.error f, after)

def announce (place : Position) (source : List Char) (call : Step α) : Step α := fun ctx =>
  match call ctx with
  | (.ok a, after) => (.ok a, after)
  | (.error f, after) => announced place source f after

/-- Ends an instruction that a call has given up as if it had finished. Nothing is reported. -/
def settle (depth : Nat) (f : Failure) : Step Unit := do
  modify (Context.cut depth)
  match f with
  | .plugin _ _ => pure ()
  | .problem d => fail (.problem d)

def bounded (place : Position) (action : Step Unit) : Step Unit := fun ctx =>
  located place (rescue (do count; action) (settle ctx.depth)) ctx

end Step

/-- A problem that no instruction has to report. -/
def Failure.Deliberate (f : Failure) : Prop := ∃ d, f = .problem d ∧ d.fault ≠ .run .generalError

theorem Failure.deliberate_of_fault {d : Diagnostic} {fault : RunFault}
    (same : d.fault = .run fault) (other : fault ≠ .generalError) : Failure.Deliberate (.problem d) :=
  ⟨d, rfl, by simpa [same] using other⟩

theorem Failure.Deliberate.unexpected? {f : Failure} (h : f.Deliberate) : f.unexpected? = none := by
  obtain ⟨d, rfl, other⟩ := h
  simp [Failure.unexpected?, Diagnostic.isRun, other]

namespace Step

def Quiet (s : Step α) : Prop := ∀ ctx f, (s ctx).1 = .error f → f.Deliberate

end Step

/-- Calls report their unexpected failures, and instructions report nothing. -/
def Manner.reporting (c : Catalog) : Manner :=
  ⟨Context.findPartial c, Step.announce, fun place _ action => Step.bounded place action⟩

namespace Step

section

variable {α β : Type} {s : Step α} {k : α → Step β} {place : Position} {source : List Char}

theorem announced_deliberate {f : Failure} (h : f.Deliberate) (after : Context) :
    (announced place source f after : Except Failure α × Context) = (.error f, after) := by
  obtain ⟨d, rfl, other⟩ := h
  exact if_neg other

theorem unexpected_cases (f : Failure) :
    (f.Deliberate ∧ f.unexpected? = none) ∨
      ∃ name message, f.unexpected? = some (name, message) ∧
        ∀ {α : Type} (place : Position) (source : List Char) (after : Context),
          (announced place source f after : Except Failure α × Context) =
            tell place source name message after := by
  cases f with
  | plugin name message => exact .inr ⟨name, message, rfl, fun _ _ _ => rfl⟩
  | problem d =>
    by_cases general : d.fault = .run .generalError
    · have data : d.data.getD d.detail =
          d.data.getD ("Default error " ++ d.name.getD "???" ++ ": " ++ "???") := by
        cases given : d.data with
        | some data => rfl
        | none => rw [Diagnostic.detail, general, given]; rfl
      refine .inr ⟨d.name.getD "GENERAL_ERROR", d.data.getD d.detail, ?_, fun _ _ _ => ?_⟩
      · simp [Failure.unexpected?, Diagnostic.isRun, general, Fault.code, RunFault.code]
      · rw [announced, if_pos general, data]
    · have deliberate : Failure.Deliberate (.problem d) := ⟨d, rfl, general⟩
      exact .inl ⟨deliberate, deliberate.unexpected?⟩

theorem Quiet.announce (h : Quiet s) : announce place source s = s := by
  funext ctx
  rcases outcome : s ctx with ⟨f | a, after⟩
  · simp [Step.announce, outcome, announced_deliberate (h ctx f (congrArg Prod.fst outcome))]
  · simp [Step.announce, outcome]

theorem announce_bind : announce place source (s >>= k) =
    announce place source s >>= fun a => announce place source (k a) := by
  funext ctx
  rcases outcome : s ctx with ⟨f | a, after⟩
  · simp only [announce, Bind.bind, andThen, outcome]
    rcases unexpected_cases f with ⟨deliberate, -⟩ | ⟨name, message, -, told⟩
    · simp only [announced_deliberate deliberate]
    · simp only [told, tell]
      by_cases safe : after.options.safe = true <;> simp [safe]
  · simp only [announce, Bind.bind, andThen, outcome]

theorem Quiet.bind (first : Quiet s) (next : ∀ a, Quiet (k a)) : Quiet (s >>= k) := by
  intro ctx f failed
  rcases outcome : s ctx with ⟨g | a, middle⟩
  · rw [bind_error outcome] at failed
    cases failed
    exact first ctx _ (congrArg Prod.fst outcome)
  · rw [bind_ok outcome] at failed
    exact next a middle f failed

theorem quiet_value (a : α) : Quiet (pure a : Step α) := by
  intro ctx f failed
  cases failed

theorem quiet_read (f : Context → α) : Quiet (read f) := by
  intro ctx g failed
  cases failed

theorem quiet_modify (f : Context → Context) : Quiet (modify f) := by
  intro ctx g failed
  cases failed

theorem announce_within (node : Node) :
    announce place source (within node s) = within node (announce place source s) := by
  simp only [Step.within, announce_bind, (quiet_modify _).announce, (quiet_value _).announce]

theorem announce_rounds (round : Bool → Step Unit) (i : Nat) (items : List Json.Value) :
    announce place source (roundsOf round i items) =
      roundsOf (fun last => announce place source (round last)) i items := by
  induction items generalizing i with
  | nil => exact (quiet_value ()).announce
  | cons item rest ih =>
    simp only [roundsOf, announce_bind, (quiet_modify _).announce, announce_within, ih]

theorem quiet_refuse {d : Diagnostic} {fault : RunFault} (same : d.fault = .run fault)
    (other : fault ≠ .generalError) : Quiet (refuse d) := by
  intro ctx f failed
  unfold refuse at failed
  split at failed
  · cases failed
  · cases failed
    exact Failure.deliberate_of_fault same other

theorem check_deliberate {l : Limiter} {d : Diagnostic} (place : Position)
    (h : l.check.2 = some d) : Failure.Deliberate (.problem { d with place }) := by
  unfold Limiter.check Limiter.passHard at h
  dsimp only at h
  split at h
  · cases h
  · split at h
    · cases h
    · split at h
      · cases h
        exact Failure.deliberate_of_fault rfl (by decide)
      · cases h

theorem quiet_count : Quiet count := by
  intro ctx f failed
  cases limited : ctx.limiter with
  | none =>
    rw [count_none limited] at failed
    cases failed
  | some l =>
    rw [count_some limited] at failed
    cases found : l.check.2 with
    | none =>
      rw [found] at failed
      cases failed
    | some d =>
      rw [found] at failed
      cases failed
      exact check_deliberate ctx.place found

theorem Atom.quiet (h : Atom s) : Quiet s := by
  cases h with
  | look f blind => exact quiet_read f
  | count => exact quiet_count
  | write text => exact quiet_modify _
  | assign vars => exact quiet_modify _
  | define name body => exact quiet_modify _
  | noteProblems program => exact quiet_modify _
  | evaluate program =>
    intro ctx f failed
    cases failed

end

section

variable {place : Position} {source : List Char}

theorem quiet_recover (depth : Nat) (f : Failure) : Quiet (recover place source depth f) := by
  refine (quiet_modify _).bind fun _ => ?_
  rcases unexpected_cases f with ⟨deliberate, reported⟩ | ⟨name, message, reported, -⟩
  · rw [reported]
    intro ctx g failed
    cases failed
    exact deliberate
  · rw [reported]
    exact (quiet_modify _).bind fun _ => quiet_refuse rfl (by decide)

theorem quiet_instruction (s : Step Unit) : Quiet (instruction place source s) := by
  intro ctx f failed
  rcases outcome : (do count; s : Step Unit) { ctx with place } with ⟨g | u, middle⟩
  · rw [instruction_error outcome] at failed
    exact quiet_recover ctx.depth g middle f failed
  · rw [instruction_ok outcome] at failed
    cases failed

theorem rescue_ok {s : Step Unit} {handle : Failure → Step Unit} {ctx after : Context}
    (h : s ctx = (.ok (), after)) : rescue s handle ctx = (.ok (), after) := by
  simp only [rescue, h]

theorem rescue_error {s : Step Unit} {handle : Failure → Step Unit} {f : Failure}
    {ctx after : Context} (h : s ctx = (.error f, after)) :
    rescue s handle ctx = handle f after := by
  simp only [rescue, h]

theorem rescue_tell {s : Step Unit} {name message : String} {ctx after : Context}
    (h : s ctx = tell place source name message after) (depth : Nat) :
    rescue s (settle depth) ctx =
      report (unexpected place source name message) (after.cut depth) := by
  by_cases safe : after.options.safe = true
  · rw [tell, if_pos safe] at h
    rw [rescue_error h]
    simp [report, Bind.bind, andThen, modify, refuse, Context.cut, safe]
    rfl
  · rw [tell, if_neg safe] at h
    rw [rescue_error h]
    simp [report, Bind.bind, andThen, modify, refuse, Context.cut, safe]
    rfl

theorem rescue_announced {s : Step Unit} {f : Failure} {ctx after : Context}
    (h : s ctx = (.error f, after)) (depth : Nat) :
    rescue (announce place source s) (settle depth) ctx = recover place source depth f after := by
  have ends : announce place source s ctx = announced place source f after := by
    simp only [announce, h]
  rw [recover_eq]
  rcases unexpected_cases f with ⟨deliberate, reported⟩ | ⟨name, message, reported, told⟩
  · rw [rescue_error (ends.trans (announced_deliberate deliberate after)), reported]
    obtain ⟨d, rfl, -⟩ := deliberate
    rfl
  · rw [rescue_tell (ends.trans (told place source after)), reported]

theorem bounded_announce (s : Step Unit) :
    bounded place (announce place source s) = instruction place source s := by
  have counted : (do count; announce place source s : Step Unit) =
      announce place source (do count; s) := by
    rw [announce_bind, quiet_count.announce]
  funext ctx
  have inside : rescue (do count; announce place source s) (settle ctx.depth) { ctx with place } =
      rescue (do count; s) (recover place source ctx.depth) { ctx with place } := by
    rw [counted]
    rcases outcome : (do count; s : Step Unit) { ctx with place } with ⟨f | u, middle⟩
    · rw [rescue_announced outcome, rescue_error outcome]
    · have ends : announce place source (do count; s) { ctx with place } = (.ok (), middle) := by
        simp only [announce, outcome]
      rw [rescue_ok ends, rescue_ok outcome]
  simp only [bounded, instruction, located, thenAlways, inside]

theorem bounded_of_quiet {s : Step Unit} (h : Quiet s) :
    bounded place s = instruction place source s := by
  rw [← bounded_announce, h.announce]

end

section

variable {α : Type} {s : Step α}

theorem Quiet.map {β : Type} (h : Quiet s) (g : α → β)
    {ctx : Context} {f : Failure} (failed : (s ctx).1.map g = .error f) : f.Deliberate := by
  cases outcome : (s ctx).1 with
  | error e =>
    rw [outcome] at failed
    cases failed
    exact h ctx _ outcome
  | ok a =>
    rw [outcome] at failed
    cases failed

theorem Quiet.asPartial (h : Quiet s) (name : String) : Quiet (asPartial name s) := by
  intro ctx f failed
  cases busy : ctx.active.contains name with
  | true =>
    rw [asPartial_refused busy] at failed
    exact (quiet_refuse rfl (by decide)).map (fun () => none) failed
  | false =>
    rw [asPartial_entered busy] at failed
    exact h.map some failed

theorem Quiet.silent {t : Step Unit} (h : Quiet t) : Quiet (silent t) :=
  fun ctx f failed => h { ctx with output := "" } f failed

theorem quiet_obtainPartial (c : Catalog) {missing faulty : RunFault} (name : String)
    (missed : missing ≠ .generalError) (wrong : faulty ≠ .generalError) :
    Quiet (obtainPartial c missing faulty name) := by
  intro ctx f failed
  rw [obtainPartial_eq] at failed
  generalize ctx.findPartial c name = found at failed
  rcases found with ⟨d | _ | body, after⟩
  · cases failed
    exact Failure.deliberate_of_fault rfl wrong
  · exact (quiet_refuse rfl missed).map (fun () => none) failed
  · cases failed

theorem quiet_include {c : Catalog} {nested : Nested}
    (quiet : ∀ name body, Quiet (nested name body)) (name : String) (output : Bool) :
    Quiet (runInclude c nested name output) := by
  refine (quiet_read _).bind fun includes => ?_
  split
  · refine (quiet_obtainPartial c name (by decide) (by decide)).bind fun found => ?_
    cases found with
    | none => exact quiet_value ()
    | some body =>
      have inside : Quiet (do let _ ← asPartial name (nested name body)) :=
        ((quiet name body).asPartial name).bind fun _ => quiet_value ()
      cases output with
      | true => exact inside
      | false => exact inside.silent
  · exact quiet_value ()

end

section

variable (c : Catalog) (nested : Nested)

theorem quiet_tree (t : Tree) : Quiet (runTree c nested t) := by
  cases t <;> exact quiet_instruction _

theorem quiet_trees (body : List Tree) : Quiet (runTrees c nested body) := by
  induction body with
  | nil => exact quiet_value ()
  | cons t rest ih => exact (quiet_tree c nested t).bind fun _ => ih

theorem quiet_nested (depth : Nat) (name : String) (body : List Tree) :
    Quiet (runNested c depth name body) := by
  cases depth with
  | zero => exact fun ctx => quiet_refuse rfl (by decide) ctx
  | succ depth => exact quiet_trees c (runNested c depth) body

end

section

open Manner

variable {c : Catalog} {nested : Manner → Nested}
  (same : nested (reporting c) = nested (plain c))
  (quiet : ∀ name body, Quiet (nested (plain c) name body))

include same quiet

theorem reporting_whole (name : String) (body : List Tree) :
    (reporting c).whole (nested (reporting c) name body) =
      (plain c).whole (nested (plain c) name body) := by
  funext ctx
  rw [same]
  exact congrFun (bounded_of_quiet (quiet name body)) ctx

theorem reporting_formatter (call : Call) (vars : Variables) :
    (reporting c).applyFormatter c (nested (reporting c)) call vars =
      (plain c).applyFormatter c (nested (plain c)) call vars := by
  simp only [Manner.applyFormatter, Manner.applyPartial, reporting_whole same quiet]
  rfl

theorem Mannered.announced {place : Position} {source : List Char} {α : Type}
    {t : Manner → Step α} (h : Mannered c nested place source t) :
    t (reporting c) = announce place source (t (plain c)) := by
  induction h with
  | value a => exact (quiet_value a).announce.symm
  | bind _ _ first next =>
    dsimp only
    rw [announce_bind, first, funext next]
  | atom atom => exact atom.quiet.announce.symm
  | within node _ inside =>
    dsimp only
    rw [announce_within, inside]
  | rounds node i items _ inside =>
    dsimp only
    rw [announce_within, announce_rounds, funext inside]
  | instruction inner text _ inside =>
    dsimp only
    have outer (s : Step Unit) : Quiet ((plain c).instruction inner text s) := quiet_instruction s
    rw [(outer _).announce, inside]
    exact bounded_announce _
  | test call => rfl
  | format call vars =>
    dsimp only
    rw [reporting_formatter same quiet]
    rfl
  | includePartial name output =>
    have included : Quiet ((plain c).runInclude (nested (plain c)) name output) :=
      quiet_include quiet name output
    dsimp only
    rw [same, included.announce]
    rfl

end

section

open Manner

variable (c : Catalog)

theorem reporting_of_nested (nested : Manner → Nested)
    (same : nested (reporting c) = nested (plain c))
    (quiet : ∀ name body, Quiet (nested (plain c) name body)) (body : List Tree) :
    (reporting c).runTrees c (nested (reporting c)) body =
      runTrees c (nested (plain c)) body := by
  have both := (mannered_trees c nested .nowhere [] body).announced same quiet
  rw [both, plain_trees, (quiet_trees c _ body).announce]

theorem reporting_nested (depth : Nat) :
    (reporting c).runNested c depth = (plain c).runNested c depth := by
  induction depth with
  | zero => rfl
  | succ depth ih =>
    funext name body
    have quiet (name : String) (body : List Tree) :
        Quiet ((plain c).runNested c depth name body) := by
      rw [plain_nested]
      exact quiet_nested c depth name body
    have both := reporting_of_nested c (fun m => m.runNested c depth) ih quiet body
    simp only [Manner.runNested, plain_trees]
    exact both

theorem reporting_trees (depth : Nat) (body : List Tree) :
    (reporting c).runTrees c ((reporting c).runNested c depth) body =
      runTrees c (runNested c depth) body := by
  have quiet (name : String) (body : List Tree) :
      Quiet ((plain c).runNested c depth name body) := by
    rw [plain_nested]
    exact quiet_nested c depth name body
  have both := reporting_of_nested c (fun m => m.runNested c depth)
    (reporting_nested c depth) quiet body
  rw [both, plain_nested]

theorem reporting_run (t : Template) (ctx : Context) :
    (reporting c).run c 0 t ctx = ctx.run c t := by
  have body : (reporting c).runBody c 0 t.body ctx = runBody c t.body ctx := by
    have quiet := quiet_trees c (runNested c (ctx.nestingLimit c t.body)) t.body
    rw [Manner.runBody, Nat.add_zero, reporting_trees]
    exact congrFun (bounded_of_quiet quiet) ctx
  rw [Manner.run, body, Context.run_eq_conclude]

/-- An unexpected failure of a formatter or predicate is reported exactly once, by the instruction
that makes the call: wherever it comes up, an execution is the one in which the call itself tells
the name and message with the place and source of its instruction, and instructions report nothing.
Out of a tree, or a whole run, come deliberate failures only. -/
theorem unexpected_reported_once (c : Catalog) :
    (∀ depth body, (reporting c).runTrees c ((reporting c).runNested c depth) body =
        runTrees c (runNested c depth) body ∧ Quiet (runTrees c (runNested c depth) body)) ∧
      ∀ t ctx, (reporting c).run c 0 t ctx = ctx.run c t ∧ Quiet (runBody c t.body) :=
  ⟨fun depth body => ⟨reporting_trees c depth body, quiet_trees c _ body⟩,
    fun t ctx => ⟨reporting_run c t ctx, fun _ => quiet_instruction _ _⟩⟩

end

def breaking : Catalog :=
  (Catalog.empty.addFormatter "break" ⟨⟨false, fun _ => .ok ()⟩, .compute fun _ _ _ =>
      .error (.plugin "break" "no luck")⟩).addPredicate "never?"
    ⟨⟨false, fun _ => .ok ()⟩, fun _ => [], fun ctx _ =>
      .error (.problem (((ctx.problem .generalError).withName "own").withData "no answer"))⟩

def breakingRounds : Template :=
  ⟨[.macroDef ⟨1, 1⟩ "m"
      [.leaf ⟨2, 3⟩ (.output [.current] [⟨"break", .none⟩]), .leaf ⟨2, 13⟩ (.text "x")]
      (some ⟨3, 1⟩),
    .block ⟨4, 1⟩ (.sectionOn (.path [.key "a"]))
      [.repeated ⟨5, 1⟩ (.path [.key "b"]) [.leaf ⟨6, 1⟩ (.includePartial "m" .none true)] .none
        (.closed ⟨7, 1⟩),
      .block ⟨8, 1⟩ (.predicate ⟨"never?", .none⟩) [.leaf ⟨9, 1⟩ (.text "never")]
        (.closed ⟨10, 1⟩)]
      (.closed ⟨11, 1⟩),
    .leaf ⟨12, 1⟩ (.text "y")], some ⟨13, 1⟩⟩

def breakingData : Node :=
  .value (.object [("a", .object [("b", .array [.bool true, .bool true])])])

structure Said where
  fault : Fault
  place : Position
  source : Option String
  name : Option String
  data : Option String
  deriving DecidableEq

def said (d : Diagnostic) : Said := ⟨d.fault, d.place, d.source, d.name, d.data⟩

/-- What a run comes to: the problem that ends it, its output, its log and its problems. -/
structure Ending where
  problem : Option Said
  output : String
  logged : List Said
  problems : List Said
  deriving DecidableEq

def ending (outcome : Except Diagnostic Unit × Context) : Ending where
  problem := match outcome.1 with
    | .ok () => none
    | .error d => some (said d)
  output := outcome.2.output
  logged := outcome.2.logged.map said
  problems := outcome.2.problems.map said

def breakReport : Said :=
  ⟨.run .unexpectedError, ⟨2, 3⟩, some "\x7b@|break\x7d", some "break", some "no luck"⟩

def neverReport : Said :=
  ⟨.run .unexpectedError, ⟨8, 1⟩, some "\x7b.never?\x7d", some "own", some "no answer"⟩

def breakingRun (safe : Bool) : Context :=
  .start { RunOptions.strict with safe, includes := true } none breakingData

theorem unexpected_reported_once_rounds :
    ending ((breakingRun false).run breaking breakingRounds) =
        ⟨some breakReport, "", [breakReport], []⟩ ∧
      ending ((breakingRun true).run breaking breakingRounds) =
        ⟨none, "xxy", [breakReport, breakReport, neverReport],
          [breakReport, breakReport, neverReport]⟩ := by
  rw [← ((unexpected_reported_once breaking).2 breakingRounds (breakingRun false)).1,
    ← ((unexpected_reported_once breaking).2 breakingRounds (breakingRun true)).1]
  decide +kernel

end Step

end JsonTemplate

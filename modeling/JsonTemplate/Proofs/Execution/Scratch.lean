import JsonTemplate.Proofs.Execution.Branch
import JsonTemplate.Proofs.Execution.Frame
import JsonTemplate.Proofs.Execution.Report

namespace JsonTemplate

namespace Context

def noteAll (found : List Diagnostic) (ctx : Context) : Context :=
  { ctx with problems := ctx.problems ++ found }

theorem noteAll_nil (ctx : Context) : ctx.noteAll [] = ctx := by
  rw [noteAll, List.append_nil]

theorem noteAll_note (found : List Diagnostic) (d : Diagnostic) (ctx : Context) :
    (ctx.noteAll found).note d = ctx.noteAll (found ++ [d]) := by
  simp only [noteAll, note, List.append_assoc]

theorem foldl_note {α : Type} {d : Context → α → Diagnostic}
    (steady : ∀ ctx other a, d (ctx.note other) a = d ctx a) (found : List α) (ctx : Context) :
    found.foldl (fun ctx a => ctx.note (d ctx a)) ctx = ctx.noteAll (found.map (d ctx)) := by
  induction found generalizing ctx with
  | nil => exact ctx.noteAll_nil.symm
  | cons a rest ih =>
    have same : d (ctx.note (d ctx a)) = d ctx := funext (steady ctx _)
    rw [List.foldl_cons, ih, same]
    simp only [noteAll, note, List.append_assoc, List.singleton_append, List.map_cons]

end Context

namespace Step

def parseProblem (program : Program) (ctx : Context) (message : String) : Diagnostic :=
  ((ctx.problem .expressionParse).withName program.source).withData message

def reduceProblem (program : Program) (ctx : Context) (message : String) : Diagnostic :=
  ((ctx.problem .expressionReduce).withName program.source).withData message

/-- The scope of an expression that also keeps what is assigned, the last assignment first. -/
def recordingScope (source : String) : Expr.Scope (Evaluation × Bindings ExprValue) where
  lookup r name := (evaluationScope source).lookup r.1 name
  assign r name v := ((evaluationScope source).assign r.1 name v, (name, v) :: r.2)
  report r message := ((evaluationScope source).report r.1 message, r.2)

def assignments (program : Program) (ctx : Context) : Bindings ExprValue :=
  (program.reduce (recordingScope program.source) (⟨ctx, 0⟩, [])).2.2

variable {program : Program} {ctx : Context} {node : Node}

def Scratched (program : Program) (ctx : Context) (node : Node)
    (r : Evaluation × Bindings ExprValue) : Prop :=
  ∃ (vars : Bindings Node) (messages : List String),
    r.1 = ⟨(ctx.push { Frame.ofNode node with vars }).noteAll
      (messages.map (reduceProblem program ctx)), messages.length⟩ ∧
    ∀ name, vars.get? name = (r.2.get? name).map ExprValue.toNode

theorem Scratched.assign {r : Evaluation × Bindings ExprValue} (h : Scratched program ctx node r)
    (name : String) (v : ExprValue) :
    Scratched program ctx node ((recordingScope program.source).assign r name v) := by
  obtain ⟨vars, messages, state, bound⟩ := h
  refine ⟨vars.set name v.toNode, messages, ?_, fun other => ?_⟩
  · simp only [recordingScope, state]
    rfl
  · by_cases same : other = name
    · rw [same, Bindings.get?_set_self]
      exact (congrArg (Option.map _) List.lookup_cons_self).symm
    · have miss : (other == name) = false := beq_eq_false_iff_ne.mpr same
      rw [Bindings.get?_set_of_ne same, bound]
      simp only [recordingScope, Bindings.get?, List.lookup_cons, miss]

theorem Scratched.report {r : Evaluation × Bindings ExprValue} (h : Scratched program ctx node r)
    (message : String) :
    Scratched program ctx node ((recordingScope program.source).report r message) := by
  obtain ⟨vars, messages, state, bound⟩ := h
  refine ⟨vars, messages ++ [message], ?_, bound⟩
  simp only [recordingScope, evaluationScope, state, Context.noteAll_note, List.map_append,
    List.length_append]
  rfl

theorem evaluate_scratch (program : Program) (ctx : Context) (node : Node) :
    ∃ (value : Option ExprValue) (vars : Bindings Node) (messages : List String),
      evaluate program (ctx.enter node) = (.ok (value, messages.length),
        (ctx.push { Frame.ofNode node with vars }).noteAll
          (messages.map (reduceProblem program ctx))) ∧
      ∀ name, vars.get? name =
        ((assignments program (ctx.enter node)).get? name).map ExprValue.toNode := by
  let scope := evaluationScope program.source
  let recording := recordingScope program.source
  have related : scope.Related recording fun e r => e = r.1 ∧ Scratched program ctx node r :=
    { lookup := fun _ ⟨same, _⟩ => by rw [same]; rfl
      assign := fun name v ⟨same, scratched⟩ => ⟨by rw [same]; rfl, scratched.assign name v⟩
      report := fun message ⟨same, scratched⟩ => ⟨by rw [same]; rfl, scratched.report message⟩ }
  have fresh : Scratched program ctx node (⟨ctx.enter node, 0⟩, []) :=
    ⟨[], [], by rw [List.map_nil, Context.noteAll_nil]; rfl, fun _ => rfl⟩
  obtain ⟨-, same, vars, messages, state, bound⟩ :=
    program.reduce_related related (s := ⟨ctx.enter node, 0⟩) (t := (⟨ctx.enter node, 0⟩, []))
      ⟨rfl, fresh⟩
  refine ⟨(program.reduce scope ⟨ctx.enter node, 0⟩).1, vars, messages, ?_, bound⟩
  rw [evaluate]
  dsimp only
  rw [same, state]

theorem holds_scratch (program : Program) (ctx : Context) :
    ∃ (taken : Bool) (messages : List String),
      holds program ctx =
        (.ok taken, ctx.noteAll (messages.map (reduceProblem program ctx))) ∧
      (messages ≠ [] → taken = false) := by
  obtain ⟨value, vars, messages, evaluated, -⟩ := evaluate_scratch program ctx ctx.node
  refine ⟨messages.length == 0 && (value.map ExprValue.toBool).getD false, messages, ?_, ?_⟩
  · exact (bind_ok rfl).trans (bind_ok (within_ok evaluated))
  · intro some'
    have counted : (messages.length == 0) = false := by simpa using some'
    rw [counted, Bool.false_and]

/-- What the debugging form of an `.eval` prints before the value of its expression. -/
def listingText (program : Program) (debug : Bool) : String :=
  if debug then "EVAL=" ++ program.listing else ""

def listed (program : Program) (debug : Bool) (ctx : Context) : Context :=
  ctx.write (listingText program debug)

theorem listed_plain (program : Program) (ctx : Context) : listed program false ctx = ctx := by
  rw [listed, Context.write]
  exact congrArg (fun output => { ctx with output }) String.append_empty

def printed (debug : Bool) (value : Option ExprValue) (ctx : Context) : Context :=
  match value with
  | none => ctx
  | some v => (if debug then ctx.write " -> " else ctx).write v.toNode.emit

theorem runEval_unread (debug : Bool) (unread : program.problems ≠ []) :
    runEval program debug ctx =
      (.ok (), (listed program debug ctx).noteAll
        (program.problems.map (parseProblem program ctx))) := by
  have noted : noteProblems program ctx =
      (.ok (), ctx.noteAll (program.problems.map (parseProblem program ctx))) :=
    congrArg (Prod.mk _) (Context.foldl_note (fun _ _ _ => rfl) program.problems ctx)
  have refused : program.problems.isEmpty = false := by simpa using unread
  refine (bind_ok noted).trans ?_
  cases debug with
  | false =>
    dsimp only
    rw [refused, listed_plain]
    rfl
  | true =>
    refine (bind_ok rfl).trans ?_
    dsimp only
    rw [refused]
    rfl

def evalListed (program : Program) (debug : Bool) : Step Unit := do
  let node ← read Context.node
  modify (Context.enter node)
  let (value, failures) ← evaluate program
  let vars ← read fun ctx => (ctx.frames.popped?.map Frame.vars).getD []
  modify Context.pop
  if failures = 0 then
    modify (assignAll vars)
    match value with
    | none => pure ()
    | some v =>
      if debug then modify (Context.write " -> ")
      modify (Context.write v.toNode.emit)

theorem runEval_listed (debug : Bool) (read' : program.problems = []) :
    runEval program debug ctx = evalListed program debug (listed program debug ctx) := by
  have unnoted : noteProblems program ctx = (.ok (), ctx) := by
    rw [noteProblems, read']
    rfl
  refine (bind_ok unnoted).trans ?_
  cases debug with
  | false =>
    dsimp only
    rw [read', listed_plain]
    rfl
  | true =>
    refine (bind_ok rfl).trans ?_
    dsimp only
    rw [read']
    rfl

/-- An expression whose text has no problem is evaluated in a scope of its own. If it has problems
there they are noted; otherwise it leaves its variables and prints its value. -/
theorem evalListed_scratch (program : Program) (debug : Bool) (ctx : Context) :
    ∃ (value : Option ExprValue) (vars : Bindings Node) (messages : List String),
      (evaluate program (ctx.enter ctx.node)).1 = .ok (value, messages.length) ∧
      (∀ name, vars.get? name =
        ((assignments program (ctx.enter ctx.node)).get? name).map ExprValue.toNode) ∧
      evalListed program debug ctx =
        (.ok (), if messages = [] then printed debug value (assignAll vars ctx)
          else ctx.noteAll (messages.map (reduceProblem program ctx))) := by
  obtain ⟨value, vars, messages, evaluated, bound⟩ := evaluate_scratch program ctx ctx.node
  refine ⟨value, vars, messages, congrArg Prod.fst evaluated, bound, ?_⟩
  refine (bind_ok rfl).trans ((bind_ok rfl).trans ((bind_ok evaluated).trans ?_))
  refine (bind_ok rfl).trans ((bind_ok rfl).trans ?_)
  cases messages with
  | cons message rest => rfl
  | nil =>
    have kept : ((ctx.push { Frame.ofNode ctx.node with vars }).noteAll
        (List.map (reduceProblem program ctx) [])).pop = ctx := by
      rw [List.map_nil, Context.noteAll_nil]
      rfl
    rw [kept]
    refine (bind_ok rfl).trans ?_
    cases value with
    | none => rfl
    | some v => cases debug <;> rfl

theorem assignAll_problems (vars : Bindings Node) (ctx : Context) :
    (assignAll vars ctx).problems = ctx.problems := by
  induction vars with
  | nil => rfl
  | cons var rest ih => exact ih

theorem printed_problems (debug : Bool) (value : Option ExprValue) (ctx : Context) :
    (printed debug value ctx).problems = ctx.problems := by
  cases value with
  | none => rfl
  | some v => cases debug <;> rfl

theorem runEval_noted (program : Program) (debug : Bool) (ctx : Context) :
    ∃ after, runEval program debug ctx = (.ok (), after) ∧ (after.problems ≠ ctx.problems →
      ∃ found, found ≠ [] ∧ after = (listed program debug ctx).noteAll found) := by
  by_cases read' : program.problems = []
  · obtain ⟨value, vars, messages, -, -, outcome⟩ :=
      evalListed_scratch program debug (listed program debug ctx)
    refine ⟨_, (runEval_listed debug read').trans outcome, ?_⟩
    by_cases clean : messages = []
    · rw [if_pos clean, printed_problems, assignAll_problems]
      exact fun noted => absurd rfl noted
    · rw [if_neg clean]
      exact fun _ => ⟨_, mt List.map_eq_nil_iff.mp clean, rfl⟩
  · exact ⟨_, runEval_unread debug read', fun _ => ⟨_, mt List.map_eq_nil_iff.mp read', rfl⟩⟩

theorem uncounted_problems {place : Text.Position} {source : List Char} {s : Step Unit}
    {ctx after : Context} {f : Failure} (refused : count { ctx with place } = (.error f, after)) :
    (instruction place source s ctx).2.problems = ctx.problems := by
  have unreported : f.unexpected? = none :=
    (quiet_count _ f (congrArg Prod.fst refused)).unexpected?
  obtain ⟨limiter, state⟩ := count_state { ctx with place }
  have untouched : after.problems = ctx.problems := by
    rw [refused] at state
    exact (congrArg Context.problems state).trans rfl
  rw [instruction_error (bind_error refused), recover_eq, unreported]
  exact untouched

/-- An `.eval` that notes a problem leaves nothing else behind: the frames and all else are as they
were, and the output is unchanged but for the listing of the debugging form. The expression of an
`.if` only ever notes problems, whatever it binds, and with a problem the alternative is taken. -/
theorem failed_evaluation_leaves_no_trace (c : Catalog) (nested : Nested) (place : Text.Position)
    (program : Program) (ctx : Context) :
    (∀ debug, (runTree c nested (.leaf place (.eval program debug)) ctx).2.problems ≠
        ctx.problems →
      ∃ found limiter, found ≠ [] ∧ runTree c nested (.leaf place (.eval program debug)) ctx =
        (.ok (), { ctx with
          problems := ctx.problems ++ found
          output := ctx.output ++ listingText program debug
          limiter })) ∧
    ∀ body tail, ∃ taken found, (found ≠ [] → taken = false) ∧
      runTree c nested (.block place (.ifExpression program) body tail) ctx =
        instruction place (Opener.ifExpression program).source (fun begun =>
          (if taken then runTrees c nested body else runTail c nested tail)
            { begun with problems := begun.problems ++ found }) ctx := by
  refine ⟨fun debug noted => ?_, fun body tail => ?_⟩
  · rcases counted : count { ctx with place } with ⟨f | u, begun⟩
    · exact absurd (uncounted_problems counted) noted
    · obtain ⟨limiter, rfl⟩ := count_begun counted
      obtain ⟨after, outcome, traceless⟩ := runEval_noted program debug { ctx with place, limiter }
      have executed : runTree c nested (.leaf place (.eval program debug)) ctx =
          (.ok (), { after with place := ctx.place }) :=
        instruction_ok ((bind_ok counted).trans outcome)
      rw [executed] at noted ⊢
      obtain ⟨found, some', rfl⟩ := traceless noted
      exact ⟨found, limiter, some', rfl⟩
  · rcases counted : count { ctx with place } with ⟨f | u, begun⟩
    · refine ⟨false, [], fun _ => rfl, runTree_block fun other again => ?_⟩
      cases counted.symm.trans again
    · obtain ⟨taken, messages, held, refused⟩ := holds_scratch program begun
      refine ⟨taken, messages.map (reduceProblem program begun),
        fun some' => refused (mt (congrArg _) some'), runTree_block fun other again => ?_⟩
      cases counted.symm.trans again
      exact (bind_ok held).trans rfl

def halfAssigned : Program := .parse .unlimited "@x = 1; a = 2"

theorem halfAssigned_leaves_no_trace :
    (runTree .core (runNested .core 0) (.leaf .nowhere (.eval halfAssigned true)) onlyThird).2.problems
        ≠ onlyThird.problems ∧
      ∃ found limiter, found ≠ [] ∧
        runTree .core (runNested .core 0) (.leaf .nowhere (.eval halfAssigned true)) onlyThird =
          (.ok (), { onlyThird with
            problems := onlyThird.problems ++ found
            output := onlyThird.output ++ listingText halfAssigned true
            limiter }) := by
  have one : (runTree .core (runNested .core 0) (.leaf .nowhere (.eval halfAssigned true))
      onlyThird).2.problems.length = 1 := by decide +kernel
  have noted : (runTree .core (runNested .core 0) (.leaf .nowhere (.eval halfAssigned true))
      onlyThird).2.problems ≠ onlyThird.problems := fun same => by
    rw [same] at one
    cases one
  exact ⟨noted, (failed_evaluation_leaves_no_trace .core _ .nowhere halfAssigned onlyThird).1 true
    noted⟩

end Step

end JsonTemplate

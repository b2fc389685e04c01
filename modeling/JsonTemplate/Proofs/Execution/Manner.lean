import JsonTemplate.Proofs.Execution.Completion

namespace JsonTemplate

open JsonTemplate.Text

/-- A search for the code of a partial. -/
abbrev Search := String → Context → Except Diagnostic (Option (List Tree)) × Context

/-- What can be replaced in an execution. A call is told the place and the source of the instruction
that makes it. -/
structure Manner where
  find : Search
  called : {α : Type} → Position → List Char → Step α → Step α
  instruction : Position → List Char → Step Unit → Step Unit

namespace Manner

open Step

def ofSearch (find : Search) : Manner := ⟨find, fun _ _ call => call, Step.instruction⟩

def plain (c : Catalog) : Manner := ofSearch (Context.findPartial c)

section

variable (m : Manner) (c : Catalog)

def search (name : String) : Step (Except Diagnostic (Option (List Tree))) := fun ctx =>
  let (found, ctx) := m.find name ctx
  (.ok found, ctx)

def obtainPartial (missing faulty : RunFault) (name : String) : Step (Option (List Tree)) := do
  let found ← m.search name
  let problem ← read fun ctx => fun fault => (ctx.problem fault).withName name
  match found with
  | .ok (some body) => pure (some body)
  | .ok none =>
    refuse (problem missing)
    pure none
  | .error d => fail (.problem (((problem faulty).withData d.message).withCauses [d]))

def whole (action : Step Unit) : Step Unit := fun ctx => m.instruction ctx.place [] action ctx

def applyPartial (nested : Nested) (args : Arguments) (node : Node) : Step Node := do
  match ← m.obtainPartial .applyPartialMissing .applyPartialSyntax args.first with
  | none => pure .missing
  | some body =>
    let frame := partialFrame (args.values.drop 1) node
    match ← asPartial args.first (capture frame (m.whole (nested args.first body))) with
    | none => pure .missing
    | some text => pure (.text text)

def applyFormatter (nested : Nested) (call : Call) (vars : Variables) : Step Variables := do
  match (c.formatter? call.name).map Formatter.transform with
  | none => pure vars
  | some (.compute f) =>
    let result ← read fun ctx => f ctx.resolve call.args vars.first
    let node ← ofExcept result
    pure (vars.setFirst node)
  | some .applyPartial =>
    let node ← m.applyPartial nested call.args vars.first
    pure (vars.setFirst node)
  | some (.step f) => f call.args vars

def test (place : Position) (source : List Char) (call : Call) : Step Bool :=
  m.called place source (c.test call)

variable (nested : Nested) (place : Position) (source : List Char)

def applyFormatters : List Call → Variables → Step Variables
  | [], vars => pure vars
  | call :: rest, vars => do
    count
    let next ← m.called place source (m.applyFormatter c nested call vars)
    applyFormatters rest next

def runOutput (names : List VarName) (calls : List Call) : Step Unit := do
  let vars ← resolveAll names
  within vars.first do
    let formatted ← m.applyFormatters c nested place source calls vars
    modify (Context.write formatted.first.emit)

def runBind (name : String) (names : List VarName) (calls : List Call) : Step Unit := do
  let vars ← resolveAll names
  let formatted ← m.applyFormatters c nested place source calls vars
  modify (Context.setVar name formatted.first)

def runInclude (name : String) (output : Bool) : Step Unit := do
  if ← read fun ctx => ctx.options.includes then
    match ← m.obtainPartial .includePartialMissing .includePartialSyntax name with
    | none => pure ()
    | some body =>
      let action : Step Unit := do
        let _ ← asPartial name (nested name body)
      if output then action else silent action

def runLeaf : Leaf → Step Unit
  | .output vars formatters => m.runOutput c nested place source vars formatters
  | .bind name vars formatters => m.runBind c nested place source name vars formatters
  | .includePartial name _ output => m.runInclude nested name output
  | l => Step.runLeaf c nested l

def entry : Opener → Step Entry
  | .predicate call => do
    let taken ← m.test c place source call
    pure (if taken then .inside else .skip)
  | .ifPredicate call => do
    let taken ← m.test c place source call
    pure (if taken then .inside else .skip)
  | o => Step.entry c o

end

section

variable (m : Manner) (c : Catalog) (nested : Nested)

mutual

def runTree : Tree → Step Unit
  | .leaf place l => m.instruction place l.source (m.runLeaf c nested place l.source l)
  | .block place o body tail =>
    m.instruction place o.source (do
      match ← m.entry c place o.source o with
      | .skip => runTail tail
      | .inside => runTrees body
      | .on node => within node (runTrees body))
  | .repeated place var body alternates tail =>
    m.instruction place (repeatedSource var) (do
      let node ← read (Context.resolveSection · var)
      match sectionItems node with
      | [] => runTail tail
      | items => within node (rounds (runTrees body) (runAlternates alternates) 0 items))
  | .macroDef place name body _ =>
    m.instruction place (macroSource name) (modify (Context.setMacro name body))

def runTrees : List Tree → Step Unit
  | [] => pure ()
  | t :: rest => do
    runTree t
    runTrees rest

def runTail : Tail → Step Unit
  | .unclosed => pure ()
  | .closed place => m.instruction place Op.close.source (pure ())
  | .or place call body tail =>
    m.instruction place (orSource call) (do
      let taken ← match call with
        | none => pure true
        | some call => m.test c place (orSource (some call)) call
      if taken then runTrees body else runTail tail)

def runAlternates : Alternates → Step Unit
  | .none => pure ()
  | .between _ body _ => do
    count
    runTrees body

end

end

section

variable (m : Manner) (c : Catalog)

def runNested : Nat → Nested
  | 0, name, _ => fun ctx => refuse ((ctx.problem .applyPartialRecursion).withName name) ctx
  | depth + 1, _, body => m.runTrees c (runNested depth) body

/-- Executes code, with a number of levels of partials beyond those that it may need. -/
def runBody (extra : Nat) (body : List Tree) : Step Unit := fun ctx =>
  m.whole (m.runTrees c (m.runNested c (ctx.nestingLimit c body + extra)) body) ctx

def run (extra : Nat) (t : Template) (ctx : Context) : Except Diagnostic Unit × Context :=
  Context.conclude (m.runBody c extra t.body ctx)

def runSource (extra : Nat) (source : String) (ctx : Context) :
    Except Diagnostic Unit × Context :=
  match Context.compileSource c ctx.options source with
  | .error d => (.error d, ctx)
  | .ok compiled =>
    m.run c extra compiled.template (compiled.problems.foldl (fun ctx d => ctx.note d) ctx)

end

theorem obtainPartial_eq (m : Manner) (missing faulty : RunFault) (name : String) (ctx : Context) :
    m.obtainPartial missing faulty name ctx =
      match m.find name ctx with
      | (.ok (some body), after) => (.ok (some body), after)
      | (.ok none, after) =>
        ((refuse ((after.problem missing).withName name) after).1.map fun () => none,
          (refuse ((after.problem missing).withName name) after).2)
      | (.error d, after) =>
        (.error (.problem ((((after.problem faulty).withName name).withData d.message).withCauses
          [d])), after) := by
  rcases outcome : m.find name ctx with ⟨d | _ | body, after⟩
  · simp only [obtainPartial, search, Bind.bind, andThen, outcome]
    rfl
  · simp only [obtainPartial, search, Bind.bind, andThen, Step.read, outcome]
    rcases refuse ((after.problem missing).withName name) after with ⟨f | u, noted⟩ <;> rfl
  · simp only [obtainPartial, search, Bind.bind, andThen, outcome]
    rfl

section

variable (c : Catalog) (nested : Nested)

theorem plain_formatters (place : Position) (source : List Char) (calls : List Call)
    (vars : Variables) :
    (plain c).applyFormatters c nested place source calls vars =
      Step.applyFormatters c nested calls vars := by
  induction calls generalizing vars with
  | nil => rfl
  | cons call rest ih => simp only [applyFormatters, Step.applyFormatters, ih]; rfl

theorem plain_leaf (place : Position) (source : List Char) (l : Leaf) :
    (plain c).runLeaf c nested place source l = Step.runLeaf c nested l := by
  cases l with
  | output vars calls =>
    simp only [runLeaf, runOutput, plain_formatters]
    rfl
  | bind name vars calls =>
    simp only [runLeaf, runBind, plain_formatters]
    rfl
  | _ => rfl

theorem plain_entry (place : Position) (source : List Char) (o : Opener) :
    (plain c).entry c place source o = Step.entry c o := by
  cases o <;> rfl

theorem plain_instruction : (plain c).instruction = Step.instruction := rfl

mutual

theorem plain_tree (t : Tree) : (plain c).runTree c nested t = Step.runTree c nested t := by
  match t with
  | .leaf place l => rw [runTree, plain_leaf]; rfl
  | .block place o body tail =>
    rw [runTree, Step.runTree, plain_entry, plain_instruction]
    refine congrArg (Step.instruction place o.source) (congrArg (Step.entry c o >>= ·) ?_)
    funext entry
    cases entry with
    | skip => exact plain_tail tail
    | inside => exact plain_trees body
    | on node => exact congrArg (within node) (plain_trees body)
  | .repeated place var body alternates tail =>
    rw [runTree, Step.runTree, plain_instruction]
    refine congrArg (Step.instruction place (repeatedSource var)) (congrArg (read _ >>= ·) ?_)
    funext node
    cases sectionItems node with
    | nil => exact plain_tail tail
    | cons item items =>
      exact congrArg₂ (fun round between => within node (rounds round between 0 (item :: items)))
        (plain_trees body) (plain_alternates alternates)
  | .macroDef place name body close => rfl

theorem plain_trees (body : List Tree) :
    (plain c).runTrees c nested body = Step.runTrees c nested body := by
  match body with
  | [] => rfl
  | t :: rest => rw [runTrees, Step.runTrees, plain_tree t, plain_trees rest]

theorem plain_tail (tail : Tail) : (plain c).runTail c nested tail = Step.runTail c nested tail := by
  match tail with
  | .unclosed => rfl
  | .closed place => rfl
  | .or place call body tail =>
    simp only [runTail, Step.runTail, plain_trees body, plain_tail tail, plain_instruction]
    cases call <;> rfl

theorem plain_alternates (alternates : Alternates) :
    (plain c).runAlternates c nested alternates = Step.runAlternates c nested alternates := by
  match alternates with
  | .none => rfl
  | .between place body implied => simp only [runAlternates, Step.runAlternates, plain_trees body]

end

theorem plain_nested (depth : Nat) : (plain c).runNested c depth = Step.runNested c depth := by
  induction depth with
  | zero => rfl
  | succ depth ih =>
    funext name body
    rw [runNested, Step.runNested, ih, plain_trees]

theorem plain_body (tidy : c.Tidy) (extra : Nat) (body : List Tree) (ctx : Context) :
    (plain c).runBody c extra body ctx = Step.runBody c body ctx := by
  rw [← runBody_eq tidy body (Nat.le_add_right (ctx.nestingLimit c body) extra), runBody,
    plain_trees, plain_nested]
  rfl

theorem plain_run (tidy : c.Tidy) (extra : Nat) (t : Template) (ctx : Context) :
    (plain c).run c extra t ctx = ctx.run c t := by
  rw [run, plain_body c tidy, Context.run_eq_conclude]

theorem plain_source (tidy : c.Tidy) (extra : Nat) (source : String) (ctx : Context) :
    (plain c).runSource c extra source ctx = ctx.runSource c source := by
  rw [runSource, Context.runSource]
  cases Context.compileSource c ctx.options source with
  | error d => rfl
  | ok compiled => exact plain_run c tidy extra compiled.template _

end

end Manner

namespace Step

/-- Steps that are the same in every manner. -/
inductive Atom : {α : Type} → Step α → Prop where
  | look {α : Type} (f : Context → α) : Blind f → Atom (read f)
  | count : Atom count
  | write (text : String) : Atom (modify (Context.write text))
  | assign (vars : Bindings Node) : Atom (modify (assignAll vars))
  | define (name : String) (body : List Tree) : Atom (modify (Context.setMacro name body))
  | noteProblems (program : Program) : Atom (noteProblems program)
  | evaluate (program : Program) : Atom (evaluate program)

/-- What a step of an instruction is made of in every manner. -/
inductive Mannered (c : Catalog) (nested : Manner → Nested) :
    Position → List Char → {α : Type} → (Manner → Step α) → Prop where
  | value {place : Position} {source : List Char} {α : Type} (a : α) :
      Mannered c nested place source fun _ => pure a
  | bind {place : Position} {source : List Char} {α β : Type} {s : Manner → Step α}
      {k : α → Manner → Step β} : Mannered c nested place source s →
        (∀ a, Mannered c nested place source (k a)) →
          Mannered c nested place source fun m => s m >>= fun a => k a m
  | atom {place : Position} {source : List Char} {α : Type} {s : Step α} :
      Atom s → Mannered c nested place source fun _ => s
  | within {place : Position} {source : List Char} {α : Type} (node : Node)
      {s : Manner → Step α} : Mannered c nested place source s →
        Mannered c nested place source fun m => within node (s m)
  | rounds {place : Position} {source : List Char} (node : Node) {s : Bool → Manner → Step Unit}
      (i : Nat) (items : List Json.Value) :
      (∀ last, Mannered c nested place source (s last)) →
        Mannered c nested place source fun m => Step.within node (roundsOf (s · m) i items)
  | instruction {place : Position} {source : List Char} (inner : Position) (text : List Char)
      {s : Manner → Step Unit} : Mannered c nested inner text s →
        Mannered c nested place source fun m => m.instruction inner text (s m)
  | test {place : Position} {source : List Char} (call : Call) :
      Mannered c nested place source fun m => m.test c place source call
  | format {place : Position} {source : List Char} (call : Call) (vars : Variables) :
      Mannered c nested place source fun m =>
        m.called place source (m.applyFormatter c (nested m) call vars)
  | includePartial {place : Position} {source : List Char} (name : String) (output : Bool) :
      Mannered c nested place source fun m => m.runInclude (nested m) name output

section

variable {c : Catalog} {nested : Manner → Nested} {place : Position} {source : List Char}

theorem mannered_look {α : Type} (f : Context → α) (blind : Blind f) :
    Mannered c nested place source fun _ => read f := .atom (.look f blind)

theorem mannered_write (text : String) :
    Mannered c nested place source fun _ => modify (Context.write text) := .atom (.write text)

theorem mannered_set (name : String) (f : Context → Node) (blind : Blind f) :
    Mannered c nested place source fun _ => modify fun ctx => ctx.setVar name (f ctx) :=
  .bind (mannered_look f blind) fun node => .atom (.assign [(name, node)])

theorem mannered_resolveAll (names : List VarName) :
    Mannered c nested place source fun _ => resolveAll names :=
  mannered_look _ (.of_resolve fun resolve => names.map fun name => (name, resolve name))

theorem mannered_formatters (calls : List Call) (vars : Variables) :
    Mannered c nested place source fun m =>
      m.applyFormatters c (nested m) place source calls vars := by
  induction calls generalizing vars with
  | nil => exact .value vars
  | cons call rest ih => exact .bind (.atom .count) fun _ => .bind (.format call vars) ih

theorem mannered_holds (program : Program) :
    Mannered c nested place source fun _ => holds program := by
  refine .bind (mannered_look _ blind_node) fun node => ?_
  exact .bind (.within node (.atom (.evaluate program))) fun _ => .value _

theorem mannered_maybe {b : Bool} {s t : Step Unit}
    (before : Mannered c nested place source fun _ => s)
    (h : Mannered c nested place source fun _ => t) :
    Mannered c nested place source fun _ => if b then do s; t else t := by
  cases b with
  | false => exact h
  | true => exact .bind before fun _ => h

theorem mannered_eval (program : Program) (debug : Bool) :
    Mannered c nested place source fun _ => runEval program debug := by
  unfold runEval
  refine .bind (.atom (.noteProblems program)) fun _ => ?_
  dsimp only
  refine mannered_maybe (mannered_write _) ?_
  by_cases clean : program.problems.isEmpty = true
  · simp only [clean, if_true]
    refine .bind (mannered_look _ blind_node) fun node => ?_
    rw [within_look]
    refine .bind (.within node ?_) fun found => ?_
    · exact .bind (.atom (.evaluate program)) fun a =>
        .bind (mannered_look _ blind_scratchVars) fun b => .value (a, b)
    · split
      · refine .bind (.atom (.assign found.2)) fun _ => ?_
        cases found.1.1 with
        | none => exact .value ()
        | some v => exact mannered_maybe (mannered_write _) (mannered_write _)
      · exact .value ()
  · simp only [clean, Bool.false_eq_true, if_false]
    exact .value ()

theorem mannered_leaf (l : Leaf) :
    Mannered c nested place source fun m => m.runLeaf c (nested m) place source l := by
  cases l with
  | text content => exact mannered_write content
  | output vars calls =>
    refine .bind (mannered_resolveAll vars) fun resolved => .within _ ?_
    exact .bind (mannered_formatters calls resolved) fun _ => mannered_write _
  | bind name vars calls =>
    refine .bind (mannered_resolveAll vars) fun resolved => ?_
    exact .bind (mannered_formatters calls resolved)
      fun formatted => .atom (.assign [(name, formatted.first)])
  | object name bindings =>
    have blind : Blind (objectMembers bindings) := .of_resolve fun resolve =>
      Json.Value.ofMembers (bindings.filterMap fun b : Binding =>
        let node := resolve b.var
        if node.isMissing then none else some (b.name, node.toValue))
    refine mannered_set name _ fun x y seen injected => ?_
    rw [blind x y seen injected]
  | eval program debug => exact mannered_eval program debug
  | includePartial name args output => exact .includePartial name output
  | inject target path args => exact mannered_set target _ (blind_injectable path)
  | brace left => exact mannered_write _
  | blank kind => exact mannered_write _
  | comment content multiline => exact .value ()

theorem mannered_entry (o : Opener) :
    Mannered c nested place source fun m => m.entry c place source o := by
  cases o with
  | sectionOn var =>
    exact .bind (mannered_look _ (blind_resolveSection var)) fun _ => .value _
  | predicate call => exact .bind (.test call) fun _ => .value _
  | ifChain vars ops =>
    have blind := Blind.of_resolve fun resolve =>
      chainHolds (fun v => (resolve v).isTruthy) vars ops
    exact .bind (mannered_look _ blind) fun _ => .value _
  | ifPredicate call => exact .bind (.test call) fun _ => .value _
  | ifExpression program => exact .bind (mannered_holds program) fun _ => .value _

end

section

variable (c : Catalog) (nested : Manner → Nested)

mutual

theorem mannered_tree (place : Position) (source : List Char) (t : Tree) :
    Mannered c nested place source fun m => m.runTree c (nested m) t := by
  match t with
  | .leaf inner l => exact .instruction inner _ (mannered_leaf l)
  | .block inner o body tail =>
    refine .instruction inner _ (.bind (mannered_entry o) fun entered => ?_)
    cases entered with
    | skip => exact mannered_tail inner _ tail
    | inside => exact mannered_trees inner _ body
    | on node => exact .within node (mannered_trees inner _ body)
  | .repeated inner var body alternates tail =>
    refine .instruction inner _ (.bind (mannered_look _ (blind_resolveSection var)) fun node => ?_)
    cases sectionItems node with
    | nil => exact mannered_tail inner _ tail
    | cons item rest =>
      simp only [rounds_eq]
      refine .rounds node 0 (item :: rest) fun last => ?_
      refine .bind (mannered_trees inner _ body) fun _ => ?_
      cases last with
      | true => exact .value ()
      | false => exact mannered_alternates inner _ alternates
  | .macroDef inner name body close => exact .instruction inner _ (.atom (.define name body))

theorem mannered_trees (place : Position) (source : List Char) (body : List Tree) :
    Mannered c nested place source fun m => m.runTrees c (nested m) body := by
  match body with
  | [] => exact .value ()
  | t :: rest =>
    exact .bind (mannered_tree place source t) fun _ => mannered_trees place source rest

theorem mannered_tail (place : Position) (source : List Char) (tail : Tail) :
    Mannered c nested place source fun m => m.runTail c (nested m) tail := by
  match tail with
  | .unclosed => exact .value ()
  | .closed inner => exact .instruction inner _ (.value ())
  | .or inner call body tail =>
    have chosen (taken : Bool) : Mannered c nested inner (orSource call) fun m =>
        if taken then m.runTrees c (nested m) body else m.runTail c (nested m) tail := by
      cases taken with
      | true => exact mannered_trees inner _ body
      | false => exact mannered_tail inner _ tail
    refine .instruction inner _ ?_
    cases call with
    | none => exact .bind (.value true) chosen
    | some call => exact .bind (.test call) chosen

theorem mannered_alternates (place : Position) (source : List Char) (alternates : Alternates) :
    Mannered c nested place source fun m => m.runAlternates c (nested m) alternates := by
  match alternates with
  | .none => exact .value ()
  | .between _ body _ =>
    exact .bind (.atom .count) fun _ => mannered_trees place source body

end

end

end Step

end JsonTemplate

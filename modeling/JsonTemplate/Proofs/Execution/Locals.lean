import JsonTemplate.Proofs.Execution.Neutral
import JsonTemplate.Proofs.Execution.Scratch
import JsonTemplate.Proofs.Pattern.Words
import JsonTemplate.Proofs.Variable.Name

namespace JsonTemplate

open JsonTemplate.Pattern

theorem VarName.parse_localVariable {raw : List Char}
    (named : localVariable.split? raw = some (raw, [])) :
    raw.head? = some '@' ∧ VarName.parse raw = .path [.key (String.ofList raw)] := by
  obtain ⟨⟨word, isWord, rfl⟩, -⟩ := takes_localVariable.sound named
  refine ⟨rfl, ?_⟩
  have pointless : '.' ∉ '@' :: word := by
    rintro (_ | ⟨-, inside⟩)
    exact absurd (isWord.isWordChar '.' inside) (by decide)
  have some' : '@' :: word ≠ ['@'] := fun same => isWord.ne_nil (List.cons.inj same).2
  have key : Segment.parse ('@' :: word) = .key (String.ofList ('@' :: word)) :=
    Segment.parse_key List.mem_cons_self rfl
  rw [VarName.parse, if_neg some', Text.pieces_of_not_mem pointless, ← key]
  rfl

namespace Context

variable {before after : Context} {name : String} {node : Node}

/-- What a local variable resolves to once it is bound to a node in the innermost scope. -/
def readBack (name : String) (node : Node) (ctx : Context) : Node :=
  if name = "@index" then ctx.resolve (.path [.key name])
  else if !node.isMissing then node
  else if ctx.frames.top.isolated then .missing
  else FrameStack.lookup (.key name) ctx.frames.below

theorem resolve_key (ctx : Context) (name : String) :
    ctx.resolve (.path [.key name]) =
      if !(ctx.frames.top.resolve (.key name)).isMissing then ctx.frames.top.resolve (.key name)
      else if ctx.frames.top.isolated then .missing
      else FrameStack.lookup (.key name) ctx.frames.below := by
  rw [resolve, walk, FrameStack.toList_eq]
  rfl

theorem Undisturbed.resolve_local (kept : before.Undisturbed after)
    (sign : name.toList.head? = some '@') (bound : after.frames.top.var? name = some node) :
    after.resolve (.path [.key name]) = before.readBack name node := by
  rw [resolve_key, readBack, kept.below, kept.isolated]
  by_cases special : name = "@index"
  · have same : after.frames.top.resolve (.key name) = before.frames.top.resolve (.key name) := by
      rw [Frame.resolve, Frame.resolve, if_pos sign, if_pos special, if_pos sign, if_pos special,
        Frame.indexNode, Frame.indexNode, kept.index]
    rw [if_pos special, resolve_key, same]
  · have own : after.frames.top.resolve (.key name) = node := by
      rw [Frame.resolve, if_pos sign, if_neg special, bound, Option.getD_some]
    rw [if_neg special, own]

end Context

namespace Step

variable {c : Catalog} {nested : Nested} {begun : Context} {name : String} {l : Leaf} {node : Node}

theorem setVar_var? (name : String) (node : Node) (ctx : Context) :
    (ctx.setVar name node).frames.top.var? name = some node := by
  rw [Context.setVar, Context.updateTop, FrameStack.top_updateTop]
  exact Bindings.get?_set_self name node

theorem assignAll_var? (vars : Bindings Node) (name : String) (ctx : Context) :
    (assignAll vars ctx).frames.top.var? name =
      (vars.get? name).or (ctx.frames.top.var? name) := by
  induction vars with
  | nil => rfl
  | cons var rest ih =>
    obtain ⟨other, node⟩ := var
    have top : (assignAll ((other, node) :: rest) ctx).frames.top =
        (assignAll rest ctx).frames.top.setVar other node := FrameStack.top_updateTop _ _
    rw [top, Frame.var?, Frame.setVar]
    by_cases same : name = other
    · subst same
      rw [Bindings.get?_set_self, Bindings.get?, List.lookup_cons_self, Option.some_or]
    · have miss : (name == other) = false := beq_eq_false_iff_ne.mpr same
      rw [Bindings.get?_set_of_ne same, Bindings.get?, Bindings.get?, List.lookup_cons, miss]
      exact ih

theorem printed_frames (debug : Bool) (value : Option ExprValue) (ctx : Context) :
    (printed debug value ctx).frames = ctx.frames := by
  cases value with
  | none => rfl
  | some v => cases debug <;> rfl

theorem evaluate_frames (program : Program) {x y : Context} (same : x.frames = y.frames) :
    (evaluate program x).1 = (evaluate program y).1 ∧
      assignments program x = assignments program y := by
  let scope := evaluationScope program.source
  let recording := recordingScope program.source
  have lookup (name : VarName) {e f : Evaluation} (same : e.context.frames = f.context.frames) :
      scope.lookup e name = scope.lookup f name := by
    have resolved : e.context.resolve name = f.context.resolve name := by
      unfold Context.resolve Context.node
      rw [same]
    exact congrArg ExprValue.ofNode resolved
  have updated {x y : Context} (same : x.frames = y.frames) (change : Frame → Frame) :
      (x.updateTop change).frames = (y.updateTop change).frames :=
    congrArg (FrameStack.updateTop change) same
  have evaluated : scope.Related scope fun e f =>
      e.context.frames = f.context.frames ∧ e.failures = f.failures :=
    { lookup := fun name ⟨same, _⟩ => lookup name same
      assign := fun _ _ ⟨same, count⟩ => ⟨updated same _, count⟩
      report := fun _ ⟨same, count⟩ => ⟨same, congrArg (· + 1) count⟩ }
  have recorded : recording.Related recording fun r t =>
      r.1.context.frames = t.1.context.frames ∧ r.2 = t.2 :=
    { lookup := fun name ⟨same, _⟩ => lookup name same
      assign := fun name v ⟨same, assigned⟩ => ⟨updated same _, congrArg ((name, v) :: ·) assigned⟩
      report := fun _ ⟨same, assigned⟩ => ⟨same, assigned⟩ }
  obtain ⟨value, -, count⟩ := program.reduce_related evaluated (s := ⟨x, 0⟩) (t := ⟨y, 0⟩)
    ⟨same, rfl⟩
  obtain ⟨-, -, assigned⟩ := program.reduce_related recorded (s := (⟨x, 0⟩, []))
    (t := (⟨y, 0⟩, [])) ⟨same, rfl⟩
  refine ⟨?_, assigned⟩
  rw [evaluate, evaluate]
  dsimp only
  rw [value, count]

/-- What an instruction binds to a local variable: the outcome of the formatters, an object, what is
injected, or what an expression without problems assigns last. -/
inductive Binds (c : Catalog) (nested : Nested) (begun : Context) (name : String) :
    Leaf → Node → Prop where
  | bind {vars : List VarName} {calls : List Call} {formatted : Variables} {after : Context} :
      applyFormatters c nested calls (vars.map fun v => (v, begun.resolve v)) begun =
        (.ok formatted, after) →
      Binds c nested begun name (.bind name vars calls) formatted.first
  | object (bindings : List Binding) :
      Binds c nested begun name (.object name bindings)
        (.value (.object (objectMembers bindings begun)))
  | inject (path : String) (args : Arguments) :
      Binds c nested begun name (.inject name path args) (begun.injectable path)
  | eval {program : Program} {value : Option ExprValue} {v : ExprValue} (debug : Bool) :
      program.problems = [] →
      (evaluate program (begun.enter begun.node)).1 = .ok (value, 0) →
      (assignments program (begun.enter begun.node)).get? name = some v →
      Binds c nested begun name (.eval program debug) v.toNode

theorem Binds.bound (binds : Binds c nested begun name l node) :
    ∃ after, runLeaf c nested l begun = (.ok (), after) ∧
      after.frames.top.var? name = some node := by
  cases binds with
  | @bind vars calls formatted after applied =>
    exact ⟨_, (bind_ok rfl).trans (bind_ok applied), setVar_var? _ _ _⟩
  | object bindings => exact ⟨_, rfl, setVar_var? _ _ _⟩
  | inject path args => exact ⟨_, rfl, setVar_var? _ _ _⟩
  | @eval program value v debug read' clean assigned =>
    let shown := listed program debug begun
    obtain ⟨same, recorded⟩ := evaluate_frames program (x := shown.enter shown.node)
      (y := begun.enter begun.node) rfl
    obtain ⟨value', vars, messages, evaluated, bound, outcome⟩ :=
      evalListed_scratch program debug shown
    have counts := Except.ok.inj (evaluated.symm.trans (same.trans clean))
    have unnoted : messages = [] := List.length_eq_zero_iff.mp (congrArg Prod.snd counts)
    rw [if_pos unnoted] at outcome
    refine ⟨_, (runEval_listed debug read').trans outcome, ?_⟩
    rw [printed_frames, assignAll_var?, bound, recorded, assigned, Option.map_some, Option.some_or]

/-- Whatever a template binds to a local variable reads back while the scope is the innermost one,
whatever the scopes outside have bound to it. Only `@index` is the number of the round all the same,
and a variable bound to nothing is looked up in the scopes outside, unless they are out of sight. -/
theorem local_reads_back (c : Catalog) (tidy : c.Tidy) (depth : Nat) (ctx : Context)
    (place : Text.Position) (l : Leaf) (name : String) (node : Node)
    (named : localVariable.split? name.toList = some (name.toList, []))
    (counted : count { ctx with place } = (.ok (), begun))
    (binds : Binds c (runNested c depth) begun name l node) :
    ∃ after, runTree c (runNested c depth) (.leaf place l) ctx = (.ok (), after) ∧
      after.resolve (VarName.parse name.toList) = ctx.readBack name node := by
  obtain ⟨sign, parsed⟩ := VarName.parse_localVariable named
  obtain ⟨after, outcome, bound⟩ := binds.bound
  have executed : runTree c (runNested c depth) (.leaf place l) ctx =
      (.ok (), { after with place := ctx.place }) :=
    instruction_ok ((bind_ok counted).trans outcome)
  have kept := (execution_undisturbed c tidy depth ctx).1 (.leaf place l)
  rw [executed] at kept
  refine ⟨_, executed, ?_⟩
  rw [parsed, String.ofList_toList]
  exact kept.resolve_local sign bound

/-- A state with a text and with a list of one item. -/
def textAndList : Context :=
  .start .strict none (.value (.object [("c", .string "outer"), ("list", .array [.null])]))

def onItem (item : Node) : Context := (textAndList.setVar "@x" (.text "outer")).enter item

/-- An item reads back where it is there, and what the scope outside has bound where it is not. -/
theorem local_reads_back_onItem :
    Catalog.core.Tidy ∧ localVariable.split? "@x".toList = some ("@x".toList, []) ∧
      ∀ item ∈ [.text "inner", .missing],
        count { onItem item with place := .nowhere } = (.ok (), onItem item) ∧
          Binds .core (runNested .core 0) (onItem item) "@x" (.bind "@x" [.current] []) item ∧
          ∃ after,
            runTree .core (runNested .core 0) (.leaf .nowhere (.bind "@x" [.current] []))
                (onItem item) = (.ok (), after) ∧
              after.resolve (VarName.parse "@x".toList) =
                if item.isMissing then .text "outer" else item := by
  have named : localVariable.split? "@x".toList = some ("@x".toList, []) := by decide +kernel
  refine ⟨Catalog.core_tidy, named, fun item listed => ?_⟩
  have counted : count { onItem item with place := .nowhere } = (.ok (), onItem item) := rfl
  have formatted : applyFormatters .core (runNested .core 0) [] [(.current, item)] (onItem item) =
      (.ok [(.current, item)], onItem item) := rfl
  have binds : Binds .core (runNested .core 0) (onItem item) "@x" (.bind "@x" [.current] [])
      (Variables.first [(.current, item)]) := .bind formatted
  obtain ⟨after, ran, read⟩ :=
    local_reads_back .core Catalog.core_tidy 0 (onItem item) .nowhere _ "@x" _ named counted binds
  refine ⟨counted, binds, after, ran, read.trans ?_⟩
  simp only [List.mem_cons, List.not_mem_nil, or_false] at listed
  rcases listed with rfl | rfl <;> rfl

def boundRound : String := "\x7b.var @index c\x7d\x7b@index\x7d"

def boundNothing : String :=
  "\x7b.var @x c\x7d\x7b.repeated section list\x7d\x7b.var @x none\x7d\x7b@x\x7d\x7b.end\x7d"

/-- The number of the round is not what is bound to it, and outside of rounds there is none. A
variable bound to nothing shows what a scope outside has bound to it. -/
theorem local_not_read_back :
    (textAndList.runSource .core boundRound).2.output = "" ∧
      (textAndList.runSource .core boundNothing).2.output = "outer" := by
  decide +kernel

end Step

end JsonTemplate

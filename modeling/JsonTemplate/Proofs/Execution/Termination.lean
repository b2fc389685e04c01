import JsonTemplate.Proofs.Execution.NestingLimit

namespace JsonTemplate

namespace Step

variable {c : Catalog}

/-- Executes the code of partials that are nested as deep as they may be. -/
def unlimited (c : Catalog) : Nested := fun _ body ctx =>
  runTrees c (runNested c (ctx.nestingLimit c body)) body ctx

theorem agrees_unlimited (tidy : c.Tidy) {names : List String} {body : List Tree}
    (known : Tree.macroNamesAll body ⊆ names) (name : String) {n depth : Nat} (enough : n ≤ depth) :
    Agrees c names n (runTrees c (runNested c depth) body) (unlimited c name body) := by
  intro ctx before few
  let limit := ctx.nestingLimit c body
  -- The names known to the state itself may be others, so both are brought to the greater number.
  let most := max depth limit
  have here : runTrees c (runNested c depth) body ctx =
      runTrees c (nestedOver c (runNested c 0) most) body ctx :=
    agrees_trees tidy _ known enough (Nat.le_trans enough (Nat.le_max_left depth limit)) ctx before
      few
  have there : runTrees c (runNested c limit) body ctx =
      runTrees c (nestedOver c (runNested c 0) most) body ctx :=
    agrees_trees tidy _ (ctx.macroNames_known c body) (Nat.le_refl limit)
      (Nat.le_max_right depth limit) ctx (.knownNames c ctx body)
      (idle_le_nestingLimit c ctx body)
  exact here.trans there.symm

theorem unlimited_meets (tidy : c.Tidy) {names : List String} {n depth : Nat} (enough : n ≤ depth) :
    Meets c names n (runNested c depth) (unlimited c) := by
  intro m fewer name body known
  have below : m < depth := Nat.lt_of_lt_of_le fewer enough
  obtain ⟨depth, rfl⟩ := Nat.exists_eq_succ_of_ne_zero (Nat.ne_zero_of_lt below)
  exact agrees_unlimited tidy (fun n member => known (List.mem_cons_of_mem _ member)) name
    (Nat.le_of_lt_succ below)

theorem agrees_over_unlimited (tidy : c.Tidy) (body : List Tree) (ctx : Context) :
    Agrees c (ctx.knownNames c body) (ctx.nestingLimit c body)
      (runTrees c (runNested c (ctx.nestingLimit c body)) body)
      (runTrees c (unlimited c) body) := by
  let limit := ctx.nestingLimit c body
  have mirror := mirror_trees c (runNested c limit) (unlimited c) (· ∈ ctx.knownNames c body) body
    fun n member => ctx.macroNames_known c body member
  exact mirror.agrees tidy (calm_nested tidy limit) (secures_nested tidy limit)
    (unlimited_meets tidy (Nat.le_refl limit))

theorem unlimited_eq (tidy : c.Tidy) (name : String) (body : List Tree) :
    unlimited c name body = runTrees c (unlimited c) body := by
  funext ctx
  exact agrees_over_unlimited tidy body ctx ctx (.knownNames c ctx body)
    (idle_le_nestingLimit c ctx body)

theorem runBody_eq_unlimited (tidy : c.Tidy) (body : List Tree) (ctx : Context) :
    whole (runTrees c (unlimited c) body) ctx = runBody c body ctx :=
  ((agrees_over_unlimited tidy body ctx).whole ctx (.knownNames c ctx body)
    (idle_le_nestingLimit c ctx body)).symm

end Step

namespace Context

variable {c : Catalog}

/-- The names of the macros and partials of a template and of all partials it may use. -/
def allNames (c : Catalog) (options : RunOptions) (t : Template) : List String :=
  (Tree.macroNamesAll t.body ++ options.partials.flatMap (partialNames c options)).eraseDups

theorem nestingLimit_start (c : Catalog) (options : RunOptions) (limiter : Option Limiter)
    (node : Node) (t : Template) :
    (start options limiter node).nestingLimit c t.body = (allNames c options t).length := by
  have none' : (start options limiter node).frames.toList.flatMap
      (fun f => f.macros.flatMap namesOf) = [] := rfl
  have fresh : (start options limiter node).compiled.flatMap namesOf = [] := rfl
  rw [nestingLimit, knownNames, none', fresh, List.append_nil, List.append_nil]
  rfl

/-- A run has its outcome with partials nested no deeper than there are names of macros and
partials, whatever would become of deeper ones. It is the outcome of the recursion that has no
limit. -/
theorem run_terminates (tidy : c.Tidy) (options : RunOptions) (limiter : Option Limiter)
    (node : Node) (t : Template) :
    let ctx := start options limiter node
    let outcome (nested : Nested) := conclude (Step.whole (Step.runTrees c nested t.body) ctx)
    (∀ deeper, outcome (Step.nestedOver c deeper (allNames c options t).length) = ctx.run c t) ∧
      (∀ name body, Step.unlimited c name body = Step.runTrees c (Step.unlimited c) body) ∧
      outcome (Step.unlimited c) = ctx.run c t := by
  refine ⟨fun deeper => ?_, Step.unlimited_eq tidy, ?_⟩
  · rw [run_eq_conclude]
    have enough := Nat.le_of_eq (nestingLimit_start c options limiter node t)
    exact congrArg conclude (Step.runBody_eq_over tidy t.body deeper enough)
  · rw [run_eq_conclude]
    exact congrArg conclude (Step.runBody_eq_unlimited tidy t.body _)

def circular : RunOptions :=
  { RunOptions.strict with
    safe := true
    partials := [("a", "\x7b.macro m\x7d\x7b@|apply m\x7d\x7b.end\x7d\x7b@|apply b\x7d"),
      ("b", "\x7b@|apply a\x7d\x7b@|apply m\x7d")] }

def applying (name : String) : Template :=
  ⟨[.leaf ⟨1, 1⟩ (.output [.current] [⟨"apply", .parse (' ' :: name.toList)⟩])], none⟩

theorem run_terminates_circular :
    Catalog.core.Tidy ∧ (allNames .core circular (applying "a")).length = 3 ∧
      ∀ deeper, conclude (Step.whole (Step.runTrees .core (Step.nestedOver .core deeper 3)
          (applying "a").body) (start circular none .missing)) =
        (start circular none .missing).run .core (applying "a") := by
  have three : (allNames .core circular (applying "a")).length = 3 := by decide +kernel
  refine ⟨Catalog.core_tidy, three, fun deeper => ?_⟩
  have same := (run_terminates Catalog.core_tidy circular none .missing (applying "a")).1 deeper
  rwa [three] at same

end Context

end JsonTemplate

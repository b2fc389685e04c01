import JsonTemplate.Proofs.Execution.Exchange
import JsonTemplate.Proofs.Template.MacroSource

namespace JsonTemplate

open JsonTemplate.Text JsonTemplate.Pattern

theorem Context.compileSource_of_ok {c : Catalog} {options : RunOptions} {source : String}
    {compiled : Compiled}
    (h : Compiled.compile c.vocabulary ⟨false, false, options.expr⟩ source.toList = .ok compiled) :
    compileSource c options source = .ok compiled ∧ compiled.problems = [] := by
  have lenient := Compiled.compile_lenient_of_ok h
  refine ⟨?_, lenient.2⟩
  unfold compileSource
  cases options.safe with
  | true => exact lenient.1
  | false => exact h

theorem Context.runSource_of_ok {c : Catalog} (x : Context) {source : String} {compiled : Compiled}
    (h : Compiled.compile c.vocabulary ⟨false, false, x.options.expr⟩ source.toList =
      .ok compiled) :
    x.runSource c source = conclude (Step.runBody c compiled.template.body x) := by
  obtain ⟨ok, clean⟩ := compileSource_of_ok h
  rw [runSource, ok]
  dsimp only
  rw [clean, run_eq_conclude]
  rfl

def Exchange.ofPartial (options : RunOptions) (name source : String) (body : List Tree) : Exchange :=
  ⟨name, Tree.unplacedAll body, options,
    { options with partials := options.partials.add name source }⟩

section

variable {options : RunOptions} {name source : String} {c : Compiled}

theorem Exchange.ofPartial_lawful (compiled :
      Compiled.compile Catalog.core.vocabulary ⟨false, false, options.expr⟩ source.toList = .ok c) :
    (Exchange.ofPartial options name source c.template.body).Lawful where
  alike := rfl
  others := fun _ different => (Bindings.get?_set_of_ne different source).symm
  own := by
    have found : Context.compileSource .core
        { options with partials := options.partials.add name source } source = .ok c ∧
          c.problems = [] := Context.compileSource_of_ok compiled
    obtain ⟨ok, clean⟩ := found
    exact ⟨source, c, Bindings.get?_set_self name source, ok, clean, rfl⟩

theorem exchanged_start (node : Node) {body code : List Tree}
    (same : Tree.unplacedAll body = Tree.unplacedAll code) :
    ((Context.start options none node).setMacro name body).Exchanged
      (Exchange.ofPartial options name source code)
      (Context.start { options with partials := options.partials.add name source } none node) where
  options := ⟨rfl, rfl⟩
  frames := by
    refine ⟨rfl, rfl, fun other => ?_⟩
    change (Frame.setMacro name body (.ofNode node)).code other =
      ((Frame.ofNode node).code other).or _
    rw [Frame.code_setMacro]
    by_cases own : other = name
    · subst own
      simp [Frame.code, Frame.ofNode, Frame.macro?, Bindings.get?, Exchange.ofPartial, same]
    · simp [Frame.code, Frame.ofNode, Frame.macro?, Bindings.get?, Exchange.ofPartial, own]
  output := rfl
  active := rfl
  unlimited := ⟨rfl, rfl⟩
  kept := fun _ _ => rfl
  keptOwn := nofun
  problems := rfl
  logged := rfl

end

namespace Step

variable {E : Exchange}

theorem Meet.conclude {l r : Except Failure Unit × Context} (h : Meet E l r) :
    (Context.conclude l).1.mapError Diagnostic.unplaced =
        (Context.conclude r).1.mapError Diagnostic.unplaced ∧
      (Context.conclude l).2.Exchanged E (Context.conclude r).2 := by
  rcases h.cases with ⟨a, x, y, rfl, rfl, state⟩ | ⟨f, g, x, y, rfl, rfl, same, state⟩
  · exact ⟨rfl, state⟩
  · cases f with
    | problem d =>
      cases g with
      | problem d' => exact ⟨congrArg Except.error (Failure.problem.inj same), state⟩
      | plugin => cases same
    | plugin name message =>
      cases g with
      | problem => cases same
      | plugin name' message' =>
        cases same
        exact ⟨rfl, state⟩

theorem runBody_macro {x y : Context} (lawful : E.Lawful) {place : Position} {body : List Tree}
    {close : Option Position} {trees others : List Tree} (unlimited : x.limiter = none)
    (unlimited' : y.limiter = none) (depth : x.depth = y.depth)
    (defined : (x.setMacro E.name body).Exchanged E y)
    (same : Tree.unplacedAll trees = Tree.unplacedAll others) :
    Meet E (runBody .core (.macroDef place E.name body close :: trees) x)
      (runBody .core others y) := by
  -- The runs do not have the same partials, so their limits may differ. The larger one does for both.
  let limit := max (x.nestingLimit .core (.macroDef place E.name body close :: trees))
    (y.nestingLimit .core others)
  have first : x.nestingLimit .core (.macroDef place E.name body close :: trees) ≤ limit :=
    Nat.le_max_left _ _
  have second : y.nestingLimit .core others ≤ limit := Nat.le_max_right _ _
  rw [← runBody_eq Catalog.core_tidy _ first, ← runBody_eq Catalog.core_tidy _ second]
  refine Meet.instruction lawful depth ?_
  have counted : (do count; modify (Context.setMacro E.name body) : Step Unit) { x with place } =
      (.ok (), { x with place }.setMacro E.name body) := bind_ok (count_none unlimited)
  have defines : runTree .core (runNested .core limit) (.macroDef place E.name body close) x =
      (.ok (), x.setMacro E.name body) := instruction_ok counted
  have passes (z : Context) (free : z.limiter = none) :
      count { z with place := z.place } = (.ok (), z) := count_none free
  rw [bind_ok (passes x unlimited), bind_ok (passes y unlimited'), runTrees, bind_ok defines]
  exact exchanges_trees lawful (exchanges_nested lawful limit) same _ _ defined

end Step

/-- Runs that end the same but for places. -/
structure Context.EndsAlike (l r : Except Diagnostic Unit × Context) : Prop where
  result : l.1.mapError Diagnostic.unplaced = r.1.mapError Diagnostic.unplaced
  output : l.2.output = r.2.output
  problems : l.2.problems.map Diagnostic.unplaced = r.2.problems.map Diagnostic.unplaced
  logged : l.2.logged.map Diagnostic.unplaced = r.2.logged.map Diagnostic.unplaced

/-- A macro and a partial with the same source are interchangeable. Compiling the macro gives it the
code that the partial is compiled to, but for places. A run that defines the macro first goes on as
the run with the partial does, strict or safe, and ends the same. -/
theorem macro_exchanges_partial (name source : String) (isPath : IsRun isPathChar name.toList) :
    (∀ vocabulary expr c,
      Compiled.compile vocabulary ⟨false, false, expr⟩ source.toList = .ok c →
        ∃ w place body close,
          Compiled.compile vocabulary ⟨false, false, expr⟩ (macroOf name source).toList = .ok w ∧
            w.template.body = [.macroDef place name body (some close)] ∧
              Tree.unplacedAll body = Tree.unplacedAll c.template.body) ∧
      ∀ (options : RunOptions) (node : Node) (rest : String) (c r : Compiled),
        Compiled.compile Catalog.core.vocabulary ⟨false, false, options.expr⟩ source.toList =
            .ok c →
          Compiled.compile Catalog.core.vocabulary ⟨false, false, options.expr⟩ rest.toList =
              .ok r →
            Context.EndsAlike
              ((Context.start options none node).runSource .core (macroOf name source ++ rest))
              ((Context.start { options with partials := options.partials.add name source } none
                node).runSource .core rest) := by
  refine ⟨fun vocabulary expr c => Compiled.compile_macroOf_alone isPath, ?_⟩
  intro options node rest c r compiled further
  obtain ⟨⟨⟨body, stop⟩, problems, count⟩, ok, same⟩ :=
    Compiled.compile_macroOf isPath compiled further
  obtain ⟨t, others, trees, one, later⟩ := Tree.exists_of_unplacedAll same
  obtain ⟨place, code, close, rfl, equal⟩ := Tree.exists_of_unplaced_macroDef one
  let E := Exchange.ofPartial options name source c.template.body
  have lawful : E.Lawful := Exchange.ofPartial_lawful compiled
  let x := Context.start options none node
  let y := Context.start { options with partials := options.partials.add name source } none node
  have defined : (x.setMacro E.name code).Exchanged E y := exchanged_start node equal
  have bodies : Step.Meet E (Step.runBody .core body x) (Step.runBody .core r.template.body y) := by
    rw [show body = _ from trees]
    exact Step.runBody_macro lawful rfl rfl rfl defined later
  obtain ⟨result, state⟩ := bodies.conclude
  have left := x.runSource_of_ok ok
  have right := y.runSource_of_ok further
  rw [← left, ← right] at result state
  exact ⟨result, state.output, state.problems, state.logged⟩

theorem macro_exchanges_partial_greeting :
    IsRun isPathChar "m".toList ∧
      ∃ c r,
        Compiled.compile Catalog.core.vocabulary .strict "hi \x7bname\x7d".toList = .ok c ∧
          Compiled.compile Catalog.core.vocabulary .strict "\x7b@|apply m\x7d!".toList = .ok r ∧
            let first := (Context.start .strict none
                (.value (.object [("name", .string "Ann")]))).runSource .core
              (macroOf "m" "hi \x7bname\x7d" ++ "\x7b@|apply m\x7d!")
            first.2.output = "hi Ann!" ∧
              Context.EndsAlike first
                ((Context.start { RunOptions.strict with
                    partials := RunOptions.strict.partials.add "m" "hi \x7bname\x7d" } none
                  (.value (.object [("name", .string "Ann")]))).runSource .core
                    "\x7b@|apply m\x7d!") := by
  have isPath : IsRun isPathChar "m".toList := ⟨by decide, List.all_eq_true.mp (by decide)⟩
  have one : (Compiled.compile Catalog.core.vocabulary .strict
      "hi \x7bname\x7d".toList).toOption.isSome = true := by decide +kernel
  have two : (Compiled.compile Catalog.core.vocabulary .strict
      "\x7b@|apply m\x7d!".toList).toOption.isSome = true := by decide +kernel
  obtain ⟨c, found⟩ := Option.isSome_iff_exists.mp one
  obtain ⟨r, found'⟩ := Option.isSome_iff_exists.mp two
  have compiled := Compiled.ok_of_toOption found
  have further := Compiled.ok_of_toOption found'
  refine ⟨isPath, c, r, compiled, further, by decide +kernel, ?_⟩
  exact (macro_exchanges_partial "m" "hi \x7bname\x7d" isPath).2 .strict
    (.value (.object [("name", .string "Ann")])) "\x7b@|apply m\x7d!" c r compiled further

end JsonTemplate

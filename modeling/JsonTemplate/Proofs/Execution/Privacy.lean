import JsonTemplate.Proofs.Execution.Lockstep

namespace JsonTemplate

def Pairing.alike : Pairing := .ofLimiters Eq fun _ _ _ => False

theorem Pairing.alike_lawful (c : Catalog) : alike.Lawful c := by
  refine lawful_ofLimiters (fun {x y} paired => ?_) nofun
  have same : x.limiter = y.limiter := paired.records.2
  cases left : x.limiter with
  | none =>
    rw [Step.count_none left, Step.count_none (same.symm.trans left)]
    exact .steady _ paired
  | some l => exact count_together paired left (same.symm.trans left) rfl rfl

namespace Context

theorem knownNames_eq {c : Catalog} {x : Context} {frames : FrameStack}
    (macros : frames.toList.map Frame.macros = x.frames.toList.map Frame.macros)
    (body : List Tree) : knownNames c { x with frames } body = x.knownNames c body := by
  have names (s : FrameStack) : s.toList.flatMap (fun f => f.macros.flatMap namesOf) =
      (s.toList.map Frame.macros).flatMap fun macros => macros.flatMap namesOf := by
    rw [List.flatMap_map]
  rw [knownNames, knownNames, names, names, macros]

end Context

namespace Step

/-- Code executed in an isolated frame sees nothing of the frames below but their macros: with other
nodes, variables and rounds in them it prints the same text or fails the same, and leaves the same
state, its problems among it. -/
theorem runApart_isolated {frame : Frame} (isolated : frame.isolated = true) (body : List Tree)
    (x : Context) (frames : FrameStack)
    (macros : frames.toList.map Frame.macros = x.frames.toList.map Frame.macros) :
    (runApart .core frame body { x with frames }).1 = (runApart .core frame body x).1 ∧
      (runApart .core frame body { x with frames }).2 =
        { (runApart .core frame body x).2 with frames } ∧
      (runApart .core frame body x).2.frames = x.frames := by
  let limit := x.nestingLimit .core body
  let y : Context := { x with frames }
  have limit_eq : y.nestingLimit .core body = limit :=
    congrArg List.length (Context.knownNames_eq macros body)
  have lawful := Pairing.alike_lawful .core
  have nesting := calm_nested Catalog.core_tidy limit
  have kept := (calm_trees Catalog.core_tidy nesting body).keeps
  have inStep := (inStep_trees lawful limit body).whole lawful kept kept
  have paired : (x.push frame).Paired .alike (y.push frame) :=
    ⟨.push_isolated macros.symm isolated, rfl, rfl, rfl, rfl, rfl⟩
  have apart : runApart .core frame body y =
      capture frame (whole (runTrees .core (runNested .core limit) body)) y := by
    rw [runApart, limit_eq]
  change (runApart .core frame body y).1 = _ ∧ (runApart .core frame body y).2 = _ ∧ _
  rw [apart, runApart]
  rcases inStep.captured kept.whole kept.whole paired with
    ⟨result, x', y', now, left, right⟩ | ⟨f, y', -, -, parted⟩
  · have limiter : x'.limiter = y'.limiter := now.records.2
    rw [left, right]
    refine ⟨rfl, ?_, rfl⟩
    rw [Pairing.eq_of_ofLimiters now, ← limiter]
  · exact parted.elim

def enclosure : Frame := ((Frame.ofNode .missing).setIsolated true).setVar "@args" (.text "given")

def confided (secret : String) : Context :=
  .start .strict none (.value (.object [("secret", .string secret)]))

def prying : List Tree :=
  [.leaf ⟨1, 1⟩ (.output [.parse "secret".toList] []),
    .leaf ⟨1, 9⟩ (.output [.parse "@args".toList] [])]

theorem runApart_isolated_prying :
    enclosure.isolated = true ∧
      (confided "two").frames.toList.map Frame.macros =
        (confided "one").frames.toList.map Frame.macros ∧
      (runApart .core enclosure prying (confided "two")).1 =
        (runApart .core enclosure prying (confided "one")).1 := by
  have isolated : enclosure.isolated = true := rfl
  have macros : (confided "two").frames.toList.map Frame.macros =
      (confided "one").frames.toList.map Frame.macros := rfl
  exact ⟨isolated, macros, (runApart_isolated isolated prying (confided "one") _ macros).1⟩

end Step

end JsonTemplate

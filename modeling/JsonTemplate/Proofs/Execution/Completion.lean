import JsonTemplate.Proofs.Execution.NestingLimit

namespace JsonTemplate

/-- A failure of a formatter or predicate, which the instruction around it reports. -/
def Failure.OfPlugin : Failure → Prop
  | .plugin _ _ => True
  | .problem d => d.isRun .generalError

theorem Failure.unexpected_of_plugin {f : Failure} (h : f.OfPlugin) :
    ∃ told, f.unexpected? = some told := by
  cases f with
  | plugin name message => exact ⟨(name, message), rfl⟩
  | problem d => exact ⟨_, if_pos h⟩

theorem Failure.unexpected_of_fault {d : Diagnostic} {fault : RunFault} (same : d.fault = .run fault)
    (other : fault ≠ .generalError) : Failure.unexpected? (.problem d) = none := by
  simp [Failure.unexpected?, Diagnostic.isRun, same, other]

namespace Context

def limits (ctx : Context) : Option CodeLimits := ctx.limiter.bind Limiter.limits

/-- What is set for a run and stays so. -/
structure SameSetting (before after : Context) : Prop where
  options : after.options = before.options
  limits : after.limits = before.limits

/-- The state after a step that succeeds. -/
structure Settles (before after : Context) : Prop extends SameSetting before after where
  depth : after.depth ≤ before.depth

/-- A safe run without a hard limit. -/
structure Forgiving (ctx : Context) : Prop where
  safe : ctx.options.safe = true
  limits : ∀ limits, ctx.limits = some limits → limits.hard = 0

section

variable {before middle after : Context}

theorem SameSetting.trans (first : before.SameSetting middle) (second : middle.SameSetting after) :
    before.SameSetting after :=
  ⟨second.options.trans first.options, second.limits.trans first.limits⟩

theorem SameSetting.forgiving (h : before.SameSetting after) (forgiving : before.Forgiving) :
    after.Forgiving where
  safe := by rw [h.options, forgiving.safe]
  limits limits limited := forgiving.limits limits (by rw [← h.limits, limited])

theorem Forgiving.of_unlimited {ctx : Context} (safe : ctx.options.safe = true)
    (unlimited : ctx.limiter = none) : ctx.Forgiving := by
  refine ⟨safe, fun limits limited => ?_⟩
  rw [Context.limits, unlimited] at limited
  cases limited

theorem Settles.refl (ctx : Context) : ctx.Settles ctx := ⟨⟨rfl, rfl⟩, Nat.le_refl _⟩

theorem Settles.trans (first : before.Settles middle) (second : middle.Settles after) :
    before.Settles after :=
  ⟨first.toSameSetting.trans second.toSameSetting, Nat.le_trans second.depth first.depth⟩

end

end Context

theorem Limiter.check_limits (l : Limiter) : l.check.1.limits = l.limits := by
  unfold check passHard passSoft
  dsimp only
  split
  · rfl
  · split
    · rfl
    · split <;> split <;> rfl

theorem Limiter.check_forgiving {l : Limiter}
    (soft : ∀ limits, l.limits = some limits → limits.hard = 0) : l.check.2 = none := by
  unfold check
  dsimp only
  split
  · rfl
  · rename_i limits limited
    split
    · rfl
    · have endless (passed : Bool) (count : Nat) : passes limits.hard passed count = false := by
        rw [soft limits limited]
        rfl
      unfold passHard
      rw [endless]
      rfl

namespace Context

theorem Advances.settles {before after : Context} (h : before.Advances after) :
    before.Settles after := by
  induction h with
  | refl => exact .refl before
  | note d _ ih => exact ih.trans ⟨⟨rfl, rfl⟩, Nat.le_refl _⟩
  | write text _ ih => exact ih.trans ⟨⟨rfl, rfl⟩, Nat.le_refl _⟩
  | setVar name node _ ih =>
    exact ih.trans ⟨⟨rfl, rfl⟩, Nat.le_of_eq (FrameStack.depth_updateTop _ _)⟩
  | @count limiter after _ limited ih =>
    refine ih.trans ⟨⟨rfl, ?_⟩, Nat.le_refl _⟩
    rw [limits, limits, limited]
    exact limiter.check_limits
  | log d _ ih => exact ih.trans ⟨⟨rfl, rfl⟩, Nat.le_refl _⟩

end Context

/-- A formatter that fails only with failures of plugins, and leaves no frames when it succeeds. -/
def Transform.Contained : Transform → Prop
  | .compute f => ∀ lookup args node failure, f lookup args node = .error failure → failure.OfPlugin
  | .applyPartial => True
  | .step f => ∀ args vars ctx,
    (∃ formatted after, f args vars ctx = (.ok formatted, after) ∧ ctx.SameSetting after ∧
        after.depth = ctx.depth) ∨
      ∃ failure after, f args vars ctx = (.error failure, after) ∧ ctx.SameSetting after ∧
        failure.OfPlugin

/-- A predicate that fails only with failures of plugins. -/
def Predicate.Contained (p : Predicate) : Prop :=
  ∀ ctx args failure, p.test ctx args = .error failure → failure.OfPlugin

structure Catalog.Contained (c : Catalog) : Prop where
  formatter : ∀ name f, c.formatter? name = some f → f.transform.Contained
  predicate : ∀ name p, c.predicate? name = some p → p.Contained

namespace Step

variable {α β : Type}

def Completes (s : Step α) : Prop :=
  ∀ ctx : Context, ctx.Forgiving → ∃ a after, s ctx = (.ok a, after) ∧ ctx.Settles after

/-- A step that succeeds in a safe run, or fails as plugins do. -/
def Contained (s : Step α) : Prop :=
  ∀ ctx : Context, ctx.Forgiving →
    (∃ a after, s ctx = (.ok a, after) ∧ ctx.Settles after) ∨
      ∃ f after, s ctx = (.error f, after) ∧ ctx.SameSetting after ∧ f.OfPlugin

section

variable {s : Step α} {k : α → Step β}

theorem Completes.contained (h : Completes s) : Contained s :=
  fun ctx forgiving => .inl (h ctx forgiving)

theorem Completes.bind (first : Completes s) (next : ∀ a, Completes (k a)) :
    Completes (s >>= k) := by
  intro ctx forgiving
  obtain ⟨a, middle, outcome, settled⟩ := first ctx forgiving
  obtain ⟨b, after, further, calmed⟩ := next a middle (settled.forgiving forgiving)
  exact ⟨b, after, (bind_ok outcome).trans further, settled.trans calmed⟩

theorem Contained.bind (first : Contained s) (next : ∀ a, Contained (k a)) :
    Contained (s >>= k) := by
  intro ctx forgiving
  rcases first ctx forgiving with ⟨a, middle, outcome, settled⟩ | ⟨f, after, outcome, kept, told⟩
  · rw [bind_ok outcome]
    rcases next a middle (settled.forgiving forgiving) with
      ⟨b, after, further, calmed⟩ | ⟨f, after, further, kept, told⟩
    · exact .inl ⟨b, after, further, settled.trans calmed⟩
    · exact .inr ⟨f, after, further, settled.toSameSetting.trans kept, told⟩
  · exact .inr ⟨f, after, bind_error outcome, kept, told⟩

theorem completes_value (a : α) : Completes (pure a : Step α) :=
  fun ctx _ => ⟨a, ctx, rfl, .refl ctx⟩

theorem completes_read (f : Context → α) : Completes (read f) :=
  fun ctx _ => ⟨f ctx, ctx, rfl, .refl ctx⟩

theorem completes_modify {f : Context → Context} (h : ∀ ctx : Context, ctx.Advances (f ctx)) :
    Completes (modify f) :=
  fun ctx _ => ⟨(), f ctx, rfl, (h ctx).settles⟩

theorem completes_refuse (d : Diagnostic) : Completes (refuse d) := by
  intro ctx forgiving
  have noted : refuse d ctx = (.ok (), ctx.note d) := by rw [refuse, if_pos forgiving.safe]
  exact ⟨(), ctx.note d, noted, (Context.Advances.note d .refl).settles⟩

theorem completes_count : Completes count := by
  intro ctx forgiving
  cases limited : ctx.limiter with
  | none => exact ⟨(), ctx, count_none limited, .refl ctx⟩
  | some limiter =>
    have passed : limiter.check.2 = none := by
      apply Limiter.check_forgiving
      intro limits limit
      apply forgiving.limits
      rw [Context.limits, limited]
      exact limit
    have settled := (count_advances ctx).settles
    rw [count_some limited] at settled
    rw [count_some limited, passed]
    exact ⟨(), _, rfl, settled⟩

theorem completes_report (d : Diagnostic) : Completes (report d) :=
  .bind (completes_modify fun _ => .log d .refl) fun _ => completes_refuse d

theorem Contained.within (h : Contained s) (node : Node) : Contained (within node s) := by
  intro ctx forgiving
  have entered : (ctx.enter node).Forgiving := ⟨forgiving.safe, forgiving.limits⟩
  rcases h (ctx.enter node) entered with
    ⟨a, after, outcome, settled⟩ | ⟨f, after, outcome, kept, told⟩
  · refine .inl ⟨a, after.pop, within_ok outcome, ⟨settled.options, settled.limits⟩, ?_⟩
    exact FrameStack.depth_pop_le_of_le settled.depth ctx.frames.one_le_depth
  · exact .inr ⟨f, after, within_error outcome, ⟨kept.options, kept.limits⟩, told⟩

theorem Contained.rounds {round : Bool → Step Unit} (h : ∀ last, Contained (round last)) (i : Nat)
    (items : List Json.Value) : Contained (roundsOf round i items) := by
  have numbered (i : Nat) : Completes (modify (Context.updateTop (Frame.setIndex (some i)))) :=
    fun ctx _ => ⟨(), _, rfl, ⟨rfl, rfl⟩, Nat.le_of_eq (FrameStack.depth_updateTop _ _)⟩
  exact roundsOf_related (R := fun s _ => Contained s) round round (completes_value ()).contained
    (fun i => (numbered i).contained) (fun last => (h last).within)
    (fun first next => first.bind fun _ => next) i items

theorem Contained.instruction {s : Step Unit} (h : Contained s) (place : Text.Position)
    (source : List Char) : Completes (instruction place source s) := by
  intro ctx forgiving
  have placed : Context.Forgiving { ctx with place } := ⟨forgiving.safe, forgiving.limits⟩
  have counted : Contained (do count; s) := completes_count.contained.bind fun _ => h
  rcases counted { ctx with place } placed with
    ⟨u, after, outcome, settled⟩ | ⟨f, after, outcome, kept, told⟩
  · exact ⟨(), _, instruction_ok outcome, ⟨settled.options, settled.limits⟩, settled.depth⟩
  · -- What was left is cut off before the report, so the depth does not depend on the failure.
    obtain ⟨⟨name, message⟩, reported⟩ := Failure.unexpected_of_plugin told
    have restored : (after.cut ctx.depth).depth ≤ ctx.depth :=
      after.frames.depth_truncate_le ctx.frames.one_le_depth
    have calmed := kept.forgiving placed
    have ready : (after.cut ctx.depth).Forgiving := ⟨calmed.safe, calmed.limits⟩
    obtain ⟨u, noted, recovered, settled⟩ :=
      completes_report (unexpected place source name message) (after.cut ctx.depth) ready
    have handled : recover place source ctx.depth f after = (.ok (), noted) := by
      rw [recover_eq, reported]
      exact recovered
    rw [instruction_error outcome, handled]
    exact ⟨(), _, rfl, ⟨settled.options.trans kept.options, settled.limits.trans kept.limits⟩,
      Nat.le_trans settled.depth restored⟩

theorem Contained.whole {s : Step Unit} (h : Contained s) : Completes (whole s) :=
  fun ctx forgiving => h.instruction ctx.place [] ctx forgiving

theorem compileSource_safe (c : Catalog) {options : RunOptions} (safe : options.safe = true)
    (source : String) : ∃ compiled, Context.compileSource c options source = .ok compiled := by
  unfold Context.compileSource Compiled.compile
  rw [safe]
  exact ⟨_, rfl⟩

theorem finds_settles {c : Catalog} {name : String} {ctx : Context}
    {found : Except Diagnostic (Option (List Tree)) × Context} (h : ctx.Finds c name found)
    (safe : ctx.options.safe = true) :
    (∃ body, found.1 = .ok body) ∧ ctx.Settles found.2 := by
  cases h with
  | defined body | kept body => exact ⟨⟨some body, rfl⟩, .refl ctx⟩
  | missing => exact ⟨⟨none, rfl⟩, .refl ctx⟩
  | @faulty source d _ refused =>
    obtain ⟨compiled, outcome⟩ := compileSource_safe c safe source
    rw [outcome] at refused
    cases refused
  | @compiled source compiled _ _ =>
    have once : ctx.Settles ctx.compiledOnce := ⟨⟨rfl, rfl⟩, Nat.le_refl _⟩
    have noted := once.trans (Context.noteFaulty_advances name compiled.problems _).settles
    exact ⟨⟨_, rfl⟩, noted.trans ⟨⟨rfl, rfl⟩, Nat.le_refl _⟩⟩

theorem completes_obtainPartial (c : Catalog) (missing faulty : RunFault) (name : String) :
    Completes (obtainPartial c missing faulty name) := by
  intro ctx forgiving
  have found := finds_settles (ctx.findPartial_finds c name) forgiving.safe
  rw [obtainPartial_eq]
  generalize ctx.findPartial c name = search at found
  obtain ⟨⟨body, outcome⟩, settled⟩ := found
  rcases search with ⟨d | _ | body, after⟩
  · cases outcome
  · obtain ⟨u, noted, refused, calmed⟩ :=
      completes_refuse ((after.problem missing).withName name) after (settled.forgiving forgiving)
    dsimp only
    rw [refused]
    exact ⟨none, noted, rfl, settled.trans calmed⟩
  · exact ⟨some body, after, rfl, settled⟩

theorem Completes.asPartial {s : Step α} (h : Completes s) (name : String) :
    Completes (asPartial name s) := by
  intro ctx forgiving
  cases busy : ctx.active.contains name with
  | true =>
    obtain ⟨u, after, outcome, settled⟩ :=
      completes_refuse ((ctx.problem .applyPartialRecursion).withName name) ctx forgiving
    rw [asPartial_refused busy, outcome]
    exact ⟨none, after, rfl, settled⟩
  | false =>
    obtain ⟨a, after, outcome, settled⟩ :=
      h { ctx with active := name :: ctx.active } ⟨forgiving.safe, forgiving.limits⟩
    rw [asPartial_entered busy, outcome]
    exact ⟨some a, _, rfl, ⟨settled.options, settled.limits⟩, settled.depth⟩

theorem Completes.capture {s : Step Unit} (h : Completes s) (frame : Frame) :
    Completes (capture frame s) := by
  intro ctx forgiving
  obtain ⟨u, after, outcome, settled⟩ :=
    h { ctx.push frame with output := "" } ⟨forgiving.safe, forgiving.limits⟩
  unfold Step.capture
  rw [outcome]
  exact ⟨after.output, _, rfl, ⟨settled.options, settled.limits⟩,
    after.frames.depth_truncate_le ctx.frames.one_le_depth⟩

theorem Completes.silent {s : Step Unit} (h : Completes s) : Completes (silent s) := by
  intro ctx forgiving
  obtain ⟨u, after, outcome, settled⟩ :=
    h { ctx with output := "" } ⟨forgiving.safe, forgiving.limits⟩
  unfold Step.silent
  rw [outcome]
  exact ⟨(), _, rfl, ⟨settled.options, settled.limits⟩, settled.depth⟩

end

end Step

theorem CoreFormatter.ofPlugin_of_compute {f : CoreFormatter} {lookup : VarName → Node}
    {args : Arguments} {node : Node} {failure : Failure}
    (h : f.compute lookup args node = .error failure) : failure.OfPlugin := by
  cases f with
  | mod =>
    rw [compute, modulo] at h
    split at h
    · cases h
      trivial
    · cases h
  | _ => cases h

theorem Catalog.core_contained : core.Contained where
  formatter name f found := by
    obtain ⟨formatter, rfl⟩ := exists_of_get? found
    rw [CoreFormatter.toFormatter]
    rcases formatter.transform_cases with same | same
    · rw [same]
      trivial
    · rw [same]
      exact fun _ _ _ _ failed => CoreFormatter.ofPlugin_of_compute failed
  predicate name p found := by
    obtain ⟨predicate, rfl⟩ := exists_of_get? found
    intro ctx args failure failed
    rw [CorePredicate.toPredicate] at failed
    cases failed

namespace Step

variable {c : Catalog} {nested : Nested}

theorem contained_test (contained : c.Contained) (call : Call) : Contained (c.test call) := by
  intro ctx forgiving
  unfold Catalog.test
  cases known : c.predicate? call.name with
  | none => exact .inl ⟨false, ctx, rfl, .refl ctx⟩
  | some p =>
    cases outcome : p.test ctx call.args with
    | ok holds => exact .inl ⟨holds, ctx, by rw [← outcome], .refl ctx⟩
    | error f =>
      have told := contained.predicate call.name p known ctx call.args f outcome
      exact .inr ⟨f, ctx, by rw [← outcome], ⟨rfl, rfl⟩, told⟩

theorem contained_formatter (contained : c.Contained)
    (nesting : ∀ name body, Completes (nested name body)) (call : Call) (vars : Variables) :
    Contained (applyFormatter c nested call vars) := by
  unfold applyFormatter
  cases known : c.formatter? call.name with
  | none => exact (completes_value vars).contained
  | some f =>
    have inside := contained.formatter call.name f known
    rw [Option.map_some]
    cases transform : f.transform with
    | compute g =>
      rw [transform] at inside
      intro ctx forgiving
      dsimp only
      rw [compute_eq]
      cases outcome : g ctx.resolve call.args vars.first with
      | ok node => exact .inl ⟨_, ctx, rfl, .refl ctx⟩
      | error failure =>
        have told := inside ctx.resolve call.args vars.first failure outcome
        exact .inr ⟨failure, ctx, rfl, ⟨rfl, rfl⟩, told⟩
    | applyPartial =>
      refine Contained.bind (Completes.contained ?_) fun node => (completes_value _).contained
      refine (completes_obtainPartial c _ _ _).bind fun found => ?_
      cases found with
      | none => exact completes_value _
      | some body =>
        refine ((nesting _ body).contained.whole.capture _ |>.asPartial _).bind fun text => ?_
        cases text <;> exact completes_value _
    | step g =>
      rw [transform] at inside
      intro ctx forgiving
      rcases inside call.args vars ctx with
        ⟨formatted, after, outcome, kept, depth⟩ | ⟨failure, after, outcome, kept, told⟩
      · exact .inl ⟨formatted, after, outcome, kept, Nat.le_of_eq depth⟩
      · exact .inr ⟨failure, after, outcome, kept, told⟩

theorem completes_include (nesting : ∀ name body, Completes (nested name body)) (name : String)
    (output : Bool) : Completes (runInclude c nested name output) := by
  refine (completes_read _).bind fun includes => ?_
  split
  · refine (completes_obtainPartial c _ _ _).bind fun found => ?_
    cases found with
    | none => exact completes_value ()
    | some body =>
      have inside : Completes (do let _ ← asPartial name (nested name body)) :=
        ((nesting name body).asPartial name).bind fun _ => completes_value ()
      cases output with
      | true => exact inside
      | false => exact inside.silent
  · exact completes_value ()

theorem Mirror.contained {α : Type} {second : Nested} {names : String → Prop}
    (contained : c.Contained) (nesting : ∀ name body, Completes (nested name body)) {s t : Step α}
    (h : Mirror c nested second names s t) : Contained s := by
  induction h with
  | value a => exact (completes_value a).contained
  | bind _ _ first next => exact first.bind next
  | look f _ => exact (completes_read f).contained
  | count => exact completes_count.contained
  | test call => exact contained_test contained call
  | write text => exact (completes_modify fun _ => .write text .refl).contained
  | assign vars => exact (completes_modify (assignAll_advances vars)).contained
  | define name body _ =>
    exact fun ctx _ => .inl ⟨(), _, rfl, ⟨rfl, rfl⟩, Nat.le_of_eq (FrameStack.depth_updateTop _ _)⟩
  | noteProblems program =>
    exact fun ctx _ => .inl ⟨(), _, rfl, (noteProblems_advances program ctx).settles⟩
  | evaluate program =>
    exact fun ctx _ => .inl ⟨_, _, rfl, (evaluate_advances program ctx).settles⟩
  | within node _ inside => exact inside.within node
  | rounds node i items _ ih => exact (Contained.rounds ih i items).within node
  | instruction place source _ inside => exact (inside.instruction place source).contained
  | format call vars => exact contained_formatter contained nesting call vars
  | includePartial name output => exact (completes_include nesting name output).contained

theorem Single.completes {second : Nested} {names : String → Prop} (contained : c.Contained)
    (nesting : ∀ name body, Completes (nested name body)) {s t : Step Unit}
    (h : Single c nested second names s t) : Completes s := by
  cases h with
  | nothing => exact completes_value ()
  | instruction place source inside =>
    exact (inside.contained contained nesting).instruction place source

theorem completes_trees (contained : c.Contained)
    (nesting : ∀ name body, Completes (nested name body)) (body : List Tree) :
    Completes (runTrees c nested body) := by
  induction body with
  | nil => exact completes_value ()
  | cons t rest ih =>
    have first := single_tree c nested nested (fun _ => True) t fun _ _ => trivial
    exact (first.completes contained nesting).bind fun _ => ih

theorem completes_nested (contained : c.Contained) (depth : Nat) (name : String)
    (body : List Tree) : Completes (runNested c depth name body) := by
  induction depth generalizing name body with
  | zero => exact fun ctx forgiving => completes_refuse _ ctx forgiving
  | succ depth ih => exact completes_trees contained ih body

end Step

theorem Catalog.Contained.addFormatter {c : Catalog} (h : c.Contained) {name : String}
    {f : Formatter} (contained : f.transform.Contained) : (c.addFormatter name f).Contained :=
  ⟨Bindings.forall_set h.formatter contained, h.predicate⟩

theorem Catalog.Contained.addPredicate {c : Catalog} (h : c.Contained) {name : String}
    {p : Predicate} (contained : p.Contained) : (c.addPredicate name p).Contained :=
  ⟨h.formatter, Bindings.forall_set h.predicate contained⟩

namespace Context

variable {c : Catalog}

theorem run_completes (contained : c.Contained) (t : Template) {ctx : Context}
    (forgiving : ctx.Forgiving) :
    ∃ after, ctx.run c t = (.ok (), after) ∧ after.depth ≤ ctx.depth := by
  have nesting := Step.completes_nested contained (ctx.nestingLimit c t.body)
  have completes := (Step.completes_trees contained nesting t.body).contained.whole
  obtain ⟨u, after, outcome, settled⟩ := completes ctx forgiving
  have done : Step.runBody c t.body ctx = (.ok (), after) := outcome
  refine ⟨after, ?_, settled.depth⟩
  rw [run, done]

theorem runSource_completes (contained : c.Contained) (source : String) {ctx : Context}
    (forgiving : ctx.Forgiving) :
    ∃ after, ctx.runSource c source = (.ok (), after) ∧ after.depth ≤ ctx.depth := by
  obtain ⟨compiled, outcome⟩ := Step.compileSource_safe c forgiving.safe source
  have noted := (foldl_note_advances (fun _ d => d) compiled.problems ctx).settles
  obtain ⟨after, done, depth⟩ :=
    run_completes contained compiled.template (noted.forgiving forgiving)
  refine ⟨after, ?_, Nat.le_trans depth noted.depth⟩
  rw [runSource, outcome]
  exact done

/-- A safe run without a hard limit succeeds with one frame left, from a source as from compiled
code. What ends the nesting of partials is not its limit: where plugins leave nothing when they
succeed, the run is the same for every higher one. -/
theorem safe_run_completes (contained : c.Contained) (options : RunOptions)
    (limiter : Option Limiter) (node : Node)
    (forgiving : (start options limiter node).Forgiving) :
    (∀ source, ∃ after, (start options limiter node).runSource c source = (.ok (), after) ∧
        after.depth = 1) ∧
      (∀ t, ∃ after, (start options limiter node).run c t = (.ok (), after) ∧ after.depth = 1) ∧
      (c.Tidy → ∀ (ctx : Context) body depth, ctx.nestingLimit c body ≤ depth →
        Step.whole (Step.runTrees c (Step.runNested c depth) body) ctx =
          Step.runBody c body ctx) := by
  have one {after : Context} (most : after.depth ≤ 1) : after.depth = 1 :=
    Nat.le_antisymm most after.frames.one_le_depth
  refine ⟨fun source => ?_, fun t => ?_, fun tidy ctx body depth => Step.runBody_eq tidy body⟩
  · obtain ⟨after, done, most⟩ := runSource_completes contained source forgiving
    exact ⟨after, done, one most⟩
  · obtain ⟨after, done, most⟩ := run_completes contained t forgiving
    exact ⟨after, done, one most⟩

def failing : Catalog :=
  (Catalog.core.addFormatter "lose" ⟨⟨false, fun _ => .ok ()⟩, .step fun _ _ ctx =>
      (.error (.problem (ctx.problem .generalError)), ctx.pop)⟩).addPredicate "never?"
    ⟨⟨false, fun _ => .ok ()⟩, fun _ => [], fun _ _ => .error (.plugin "never?" "no answer")⟩

theorem failing_contained : failing.Contained := by
  refine (Catalog.core_contained.addFormatter ?_).addPredicate ?_
  · exact fun _ _ ctx => .inr ⟨_, ctx.pop, rfl, ⟨rfl, rfl⟩, rfl⟩
  · intro ctx args failure failed
    cases failed
    trivial

def entangled : RunOptions :=
  { RunOptions.strict with
    safe := true
    partials := [("a", "\x7b@|apply b\x7d\x7b.end\x7d"), ("b", "\x7b@|apply a\x7d")] }

theorem safe_run_completes_entangled :
    failing.Contained ∧
      (start entangled (some (.start (some ⟨1, 0, 1⟩))) .missing).Forgiving ∧
      ∃ after, (start entangled (some (.start (some ⟨1, 0, 1⟩))) .missing).runSource failing
        "\x7b@|lose|apply a\x7d\x7b.never?\x7d" = (.ok (), after) ∧ after.depth = 1 := by
  have forgiving : (start entangled (some (.start (some ⟨1, 0, 1⟩))) .missing).Forgiving := by
    refine ⟨rfl, fun limits limited => ?_⟩
    cases limited
    rfl
  exact ⟨failing_contained, forgiving,
    (safe_run_completes failing_contained entangled _ .missing forgiving).1 _⟩

end Context

end JsonTemplate

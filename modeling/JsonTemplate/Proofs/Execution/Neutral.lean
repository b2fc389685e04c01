import JsonTemplate.Proofs.Execution.Frame
import JsonTemplate.Proofs.Execution.Mirror
import JsonTemplate.Proofs.Plugin.Steady

namespace JsonTemplate

namespace Context

/-- What stays when the innermost frame is left out of account. -/
structure KeepsBelow (before after : Context) : Prop where
  depth : after.depth = before.depth
  below : after.frames.below = before.frames.below
  active : after.active = before.active
  place : after.place = before.place
  output : ∃ more, after.output = before.output ++ more
  problems : before.problems <+: after.problems

/-- What stays while an instruction is executed. -/
structure Undisturbed (before after : Context) : Prop extends KeepsBelow before after where
  node : after.frames.top.node = before.frames.top.node
  index : after.frames.top.index = before.frames.top.index
  isolated : after.frames.top.isolated = before.frames.top.isolated

section

variable {before middle after : Context}

theorem output_same (h : after.output = before.output) :
    ∃ more, after.output = before.output ++ more := ⟨"", by rw [h, String.append_empty]⟩

theorem KeepsBelow.trans (first : before.KeepsBelow middle) (second : middle.KeepsBelow after) :
    before.KeepsBelow after := by
  obtain ⟨more, output⟩ := first.output
  obtain ⟨others, further⟩ := second.output
  refine ⟨second.depth.trans first.depth, second.below.trans first.below,
    second.active.trans first.active, second.place.trans first.place, ⟨more ++ others, ?_⟩,
    first.problems.trans second.problems⟩
  rw [further, output, String.append_assoc]

theorem Undisturbed.trans (first : before.Undisturbed middle) (second : middle.Undisturbed after) :
    before.Undisturbed after :=
  ⟨first.toKeepsBelow.trans second.toKeepsBelow, second.node.trans first.node,
    second.index.trans first.index, second.isolated.trans first.isolated⟩

theorem Undisturbed.of_frames (frames : after.frames = before.frames)
    (active : after.active = before.active) (place : after.place = before.place)
    (output : ∃ more, after.output = before.output ++ more)
    (problems : before.problems <+: after.problems) : before.Undisturbed after := by
  refine ⟨⟨?_, ?_, active, place, output, problems⟩, ?_, ?_, ?_⟩
  · rw [depth, depth, frames]
  all_goals rw [frames]

theorem Undisturbed.refl (ctx : Context) : ctx.Undisturbed ctx :=
  .of_frames rfl rfl rfl (output_same rfl) List.prefix_rfl

theorem KeepsBelow.updateTop (change : Frame → Frame) (ctx : Context) :
    ctx.KeepsBelow (ctx.updateTop change) :=
  ⟨FrameStack.depth_updateTop _ _, FrameStack.below_updateTop _ _, rfl, rfl,
    output_same rfl, List.prefix_rfl⟩

theorem Undisturbed.setVar (name : String) (node : Node) (ctx : Context) :
    ctx.Undisturbed (ctx.setVar name node) := by
  have top : (ctx.setVar name node).frames.top = ctx.frames.top.setVar name node :=
    FrameStack.top_updateTop _ _
  exact ⟨.updateTop _ ctx, by rw [top]; rfl, by rw [top]; rfl, by rw [top]; rfl⟩

theorem Undisturbed.setMacro (name : String) (body : List Tree) (ctx : Context) :
    ctx.Undisturbed (ctx.setMacro name body) := by
  have top : (ctx.setMacro name body).frames.top = ctx.frames.top.setMacro name body :=
    FrameStack.top_updateTop _ _
  exact ⟨.updateTop _ ctx, by rw [top]; rfl, by rw [top]; rfl, by rw [top]; rfl⟩

theorem Undisturbed.of_advances (h : before.Advances after) : before.Undisturbed after := by
  induction h with
  | refl => exact .refl before
  | note d _ ih =>
    exact ih.trans (.of_frames rfl rfl rfl (output_same rfl) (List.prefix_append _ _))
  | write text _ ih => exact ih.trans (.of_frames rfl rfl rfl ⟨text, rfl⟩ List.prefix_rfl)
  | setVar name node _ ih => exact ih.trans (.setVar name node _)
  | count _ _ ih | log _ _ ih =>
    exact ih.trans (.of_frames rfl rfl rfl (output_same rfl) List.prefix_rfl)

theorem KeepsBelow.pop_eq {f : Frame} (h : (before.push f).KeepsBelow after) :
    after.pop = { after with frames := before.frames } := by
  rw [Context.pop, FrameStack.pop_eq h.depth h.below]

theorem KeepsBelow.cut_off {f : Frame}
    (h : (before.push f).KeepsBelow (after.cut (before.push f).depth)) :
    after.cut before.depth = { after with frames := before.frames } := by
  have again : after.frames.truncate before.depth =
      (after.cut (before.push f).depth).frames.pop := by
    rw [← FrameStack.truncate_succ_truncate]
    exact FrameStack.truncate_eq_pop h.depth
  rw [Context.cut, again, FrameStack.pop_eq h.depth h.below]

theorem KeepsBelow.pop {f : Frame} (h : (before.push f).KeepsBelow after) :
    before.Undisturbed after.pop := by
  rw [h.pop_eq]
  exact .of_frames rfl h.active h.place h.output h.problems

theorem KeepsBelow.cut {f : Frame}
    (h : (before.push f).KeepsBelow (after.cut (before.push f).depth)) :
    before.Undisturbed (after.cut before.depth) := by
  rw [h.cut_off]
  exact .of_frames rfl h.active h.place h.output h.problems

theorem KeepsBelow.cut_eq (h : before.KeepsBelow after) : after.cut before.depth = after := by
  have enough : after.frames.depth ≤ before.depth := Nat.le_of_eq h.depth
  rw [Context.cut, FrameStack.truncate_of_depth_le enough]

end

end Context

namespace Step

variable {α β : Type}

/-- The state after a step, without the frames that a failure leaves over. -/
def rest (depth : Nat) : Except Failure α × Context → Context
  | (.ok _, after) => after
  | (.error _, after) => after.cut depth

def Keeps (R : Context → Context → Prop) (s : Step α) : Prop :=
  ∀ ctx : Context, R ctx (rest ctx.depth (s ctx))

def Calm (s : Step α) : Prop := ∀ ctx : Context, ctx.Undisturbed (s ctx).2

section

variable {s : Step α} {k : α → Step β}

theorem Calm.keeps (h : Calm s) : Keeps Context.Undisturbed s := by
  intro ctx
  have kept := h ctx
  rcases outcome : s ctx with ⟨f | a, after⟩
  · rw [outcome] at kept
    rw [rest, kept.cut_eq]
    exact kept
  · rw [outcome] at kept
    exact kept

theorem Keeps.below (h : Keeps Context.Undisturbed s) : Keeps Context.KeepsBelow s :=
  fun ctx => (h ctx).toKeepsBelow

theorem Keeps.bind {R : Context → Context → Prop}
    (trans : ∀ {a b c : Context}, R a b → R b c → R a c)
    (depth : ∀ {a b : Context}, R a b → b.depth = a.depth) (first : Keeps R s)
    (next : ∀ a, Keeps R (k a)) : Keeps R (s >>= k) := by
  intro ctx
  have begun := first ctx
  rcases outcome : s ctx with ⟨f | a, middle⟩
  · rw [outcome] at begun
    rw [bind_error outcome]
    exact begun
  · have ended := next a middle
    rw [outcome] at begun
    rw [bind_ok outcome, ← depth begun]
    exact trans begun ended

theorem Calm.bind (first : Calm s) (next : ∀ a, Calm (k a)) : Calm (s >>= k) := by
  intro ctx
  have begun := first ctx
  rcases outcome : s ctx with ⟨f | a, middle⟩
  · rw [outcome] at begun
    rw [bind_error outcome]
    exact begun
  · rw [outcome] at begun
    rw [bind_ok outcome]
    exact begun.trans (next a middle)

end

section

theorem calm_value (a : α) : Calm (pure a : Step α) := fun ctx => .refl ctx

theorem calm_read (f : Context → α) : Calm (read f) := fun ctx => .refl ctx

theorem calm_of_advances {s : Step α} (h : ∀ ctx : Context, ctx.Advances (s ctx).2) : Calm s :=
  fun ctx => .of_advances (h ctx)

theorem calm_compute (f : Context → Except Failure Node) (vars : Variables) :
    Calm (do let result ← read f
             let node ← ofExcept result
             pure (vars.setFirst node) : Step Variables) := by
  intro ctx
  rw [compute_eq]
  exact .refl ctx

theorem Keeps.within {s : Step α} (h : Keeps Context.KeepsBelow s) (node : Node) :
    Keeps Context.Undisturbed (within node s) := by
  intro ctx
  have inside : (ctx.push (.ofNode node)).KeepsBelow
      (rest (ctx.push (.ofNode node)).depth (s (ctx.enter node))) := h (ctx.enter node)
  rcases outcome : s (ctx.enter node) with ⟨f | a, after⟩
  · rw [outcome] at inside
    rw [within_error outcome]
    exact inside.cut
  · rw [outcome] at inside
    rw [within_ok outcome]
    exact inside.pop

theorem Keeps.rounds {round : Bool → Step Unit} (h : ∀ last, Keeps Context.Undisturbed (round last))
    (i : Nat) (items : List Json.Value) : Keeps Context.KeepsBelow (roundsOf round i items) :=
  roundsOf_related (R := fun s _ => Keeps Context.KeepsBelow s) round round
    (calm_value ()).keeps.below (fun _ ctx => .updateTop _ ctx)
    (fun last node => ((h last).below.within node).below)
    (fun first next => .bind Context.KeepsBelow.trans Context.KeepsBelow.depth first fun _ => next)
    i items

end

theorem Keeps.instruction {s : Step Unit} (h : Keeps Context.Undisturbed s) (place : Text.Position)
    (source : List Char) : Calm (instruction place source s) := by
  intro ctx
  have moved {after : Context} (kept : Context.Undisturbed { ctx with place } after) :
      ctx.Undisturbed { after with place := ctx.place } :=
    ⟨⟨kept.depth, kept.below, kept.active, rfl, kept.output, kept.problems⟩, kept.node, kept.index,
      kept.isolated⟩
  have counted : Keeps Context.Undisturbed (do count; s) :=
    .bind Context.Undisturbed.trans (fun same => same.depth)
      (calm_of_advances count_advances).keeps fun _ => h
  have done := counted { ctx with place }
  rcases outcome : (do count; s : Step Unit) { ctx with place } with ⟨f | u, after⟩
  · rw [outcome] at done
    rw [instruction_error outcome]
    exact moved (done.trans (.of_advances (recover_advances place source ctx.depth f after)))
  · rw [outcome] at done
    rw [instruction_ok outcome]
    exact moved done

theorem Keeps.whole {s : Step Unit} (h : Keeps Context.Undisturbed s) : Calm (whole s) :=
  fun ctx => h.instruction ctx.place [] ctx

theorem finds_undisturbed {c : Catalog} {name : String} {ctx : Context}
    {found : Except Diagnostic (Option (List Tree)) × Context} (h : ctx.Finds c name found) :
    ctx.Undisturbed found.2 := by
  have compiled : ctx.Undisturbed ctx.compiledOnce :=
    .of_frames rfl rfl rfl (Context.output_same rfl) List.prefix_rfl
  cases h with
  | defined | kept | missing => exact .refl ctx
  | faulty => exact compiled
  | @compiled source template _ _ =>
    have noted :=
      compiled.trans (.of_advances (Context.noteFaulty_advances name template.problems _))
    exact noted.trans (.of_frames rfl rfl rfl (Context.output_same rfl) List.prefix_rfl)

theorem calm_obtainPartial (c : Catalog) (missing faulty : RunFault) (name : String) :
    Calm (obtainPartial c missing faulty name) := fun ctx =>
  (finds_undisturbed (ctx.findPartial_finds c name)).trans
    (.of_advances (obtainPartial_advances c missing faulty name ctx))

theorem Calm.asPartial {s : Step α} (h : Calm s) (name : String) : Calm (asPartial name s) := by
  intro ctx
  cases busy : ctx.active.contains name with
  | true =>
    rw [asPartial_refused busy]
    exact .of_advances (refuse_advances _ ctx)
  | false =>
    have inside := h { ctx with active := name :: ctx.active }
    rw [asPartial_entered busy]
    refine ⟨⟨inside.depth, inside.below, ?_, inside.place, inside.output, inside.problems⟩,
      inside.node, inside.index, inside.isolated⟩
    change List.filter _ _ = ctx.active
    rw [inside.active]
    exact exitPartial_active busy

theorem Calm.capture {s : Step Unit} (h : Calm s) (frame : Frame) : Calm (capture frame s) := by
  intro ctx
  have inside := h { ctx.push frame with output := "" }
  have removed : (s { ctx.push frame with output := "" }).2.frames.truncate ctx.depth =
      ctx.frames :=
    (FrameStack.truncate_eq_pop inside.depth).trans
      (FrameStack.pop_eq inside.depth inside.below)
  exact .of_frames removed inside.active inside.place (Context.output_same rfl) inside.problems

theorem Calm.silent {s : Step Unit} (h : Calm s) : Calm (silent s) := by
  intro ctx
  have inside := h { ctx with output := "" }
  exact ⟨⟨inside.depth, inside.below, inside.active, inside.place, Context.output_same rfl,
    inside.problems⟩, inside.node, inside.index, inside.isolated⟩

end Step

/-- A formatter that leaves the state as it is when it succeeds. When it fails, it may leave frames
and output. -/
def Transform.Tidy : Transform → Prop
  | .compute _ => True
  | .applyPartial => True
  | .step f => ∀ args vars ctx,
    (∃ formatted, f args vars ctx = (.ok formatted, ctx)) ∨
      ∃ (failure : Failure) (pushed : List Frame) (text : String),
        f args vars ctx = (.error failure, { ctx with
          frames := pushed.foldr FrameStack.push ctx.frames, output := ctx.output ++ text })

/-- A catalog whose formatters leave nothing when they succeed. -/
def Catalog.Tidy (c : Catalog) : Prop := ∀ name f, c.formatter? name = some f → f.transform.Tidy

theorem CoreFormatter.transform_cases (f : CoreFormatter) :
    f.transform = .applyPartial ∨ f.transform = .compute f.compute := by
  by_cases applies : f = .apply
  · subst applies
    exact .inl rfl
  · refine .inr ?_
    rw [transform]
    exact applies

theorem Catalog.core_tidy : core.Tidy := by
  intro name f found
  obtain ⟨formatter, rfl⟩ := exists_of_get? found
  rw [CoreFormatter.toFormatter]
  rcases formatter.transform_cases with same | same
  all_goals
    rw [same]
    trivial

theorem Catalog.Tidy.addFormatter {c : Catalog} (h : c.Tidy) {name : String} {f : Formatter}
    (tidy : f.transform.Tidy) : (c.addFormatter name f).Tidy := Bindings.forall_set h tidy

namespace Step

variable {c : Catalog} {nested : Nested}

theorem keeps_step {f : Arguments → Variables → Step Variables} (tidy : (Transform.step f).Tidy)
    (args : Arguments) (vars : Variables) : Keeps Context.Undisturbed (f args vars) := by
  intro ctx
  rcases tidy args vars ctx with ⟨formatted, outcome⟩ | ⟨failure, frames, text, outcome⟩
  · rw [outcome]
    exact .refl ctx
  · rw [outcome]
    exact .of_frames (FrameStack.truncate_foldr_push frames ctx.frames) rfl rfl ⟨text, rfl⟩
      List.prefix_rfl

theorem keeps_formatter (tidy : c.Tidy) (nesting : ∀ name body, Calm (nested name body))
    (call : Call) (vars : Variables) :
    Keeps Context.Undisturbed (applyFormatter c nested call vars) := by
  unfold applyFormatter
  cases known : c.formatter? call.name with
  | none => exact (calm_value vars).keeps
  | some f =>
    have neat := tidy call.name f known
    rw [Option.map_some]
    cases transform : f.transform with
    | compute g => exact (calm_compute _ vars).keeps
    | applyPartial =>
      refine Calm.keeps (.bind ?_ fun node => calm_value _)
      refine .bind (calm_obtainPartial c _ _ _) fun found => ?_
      cases found with
      | none => exact calm_value _
      | some body =>
        refine .bind ((nesting _ body).keeps.whole.capture _ |>.asPartial _) fun text => ?_
        cases text <;> exact calm_value _
    | step g =>
      rw [transform] at neat
      exact keeps_step neat call.args vars

theorem calm_include (nesting : ∀ name body, Calm (nested name body)) (name : String)
    (output : Bool) : Calm (runInclude c nested name output) := by
  refine .bind (calm_read _) fun includes => ?_
  split
  · refine .bind (calm_obtainPartial c _ _ _) fun found => ?_
    cases found with
    | none => exact calm_value ()
    | some body =>
      have inside : Calm (do let _ ← asPartial name (nested name body)) :=
        .bind ((nesting name body).asPartial name) fun _ => calm_value ()
      cases output with
      | true => exact inside
      | false => exact inside.silent
  · exact calm_value ()

theorem Mirror.keeps {second : Nested} {names : String → Prop} (tidy : c.Tidy)
    (nesting : ∀ name body, Calm (nested name body)) {s t : Step α}
    (h : Mirror c nested second names s t) : Keeps Context.Undisturbed s := by
  induction h with
  | value a => exact (calm_value a).keeps
  | bind _ _ first next => exact .bind Context.Undisturbed.trans (fun same => same.depth) first next
  | look f _ => exact (calm_read f).keeps
  | count => exact (calm_of_advances count_advances).keeps
  | test call => exact (calm_of_advances (test_advances c call)).keeps
  | write text => exact (calm_of_advances fun _ => .write text .refl).keeps
  | assign vars => exact (calm_of_advances (assignAll_advances vars)).keeps
  | define name body _ => exact fun ctx => .setMacro name body ctx
  | noteProblems program => exact (calm_of_advances (noteProblems_advances program)).keeps
  | evaluate program => exact (calm_of_advances (evaluate_advances program)).keeps
  | within node _ inside => exact inside.below.within node
  | rounds node i items _ ih => exact (Keeps.rounds ih i items).within node
  | instruction place source _ inside => exact (inside.instruction place source).keeps
  | format call vars => exact keeps_formatter tidy nesting call vars
  | includePartial name output => exact (calm_include nesting name output).keeps

theorem Single.calm {second : Nested} {names : String → Prop} (tidy : c.Tidy)
    (nesting : ∀ name body, Calm (nested name body)) {s t : Step Unit}
    (h : Single c nested second names s t) : Calm s := by
  cases h with
  | nothing => exact calm_value ()
  | instruction place source inside =>
    exact (inside.keeps tidy nesting).instruction place source

theorem calm_trees (tidy : c.Tidy) (nesting : ∀ name body, Calm (nested name body))
    (body : List Tree) : Calm (runTrees c nested body) := by
  induction body with
  | nil => exact calm_value ()
  | cons t rest ih =>
    have first := single_tree c nested nested (fun _ => True) t fun _ _ => trivial
    exact (first.calm tidy nesting).bind fun _ => ih

theorem calm_nested (tidy : c.Tidy) (depth : Nat) (name : String) (body : List Tree) :
    Calm (runNested c depth name body) := by
  induction depth generalizing name body with
  | zero => exact fun ctx => .of_advances (refuse_advances _ ctx)
  | succ depth ih => exact calm_trees tidy ih body

/-- Execution of an instruction, of what ends a block and of a whole template leaves the state
undisturbed, whether it succeeds or fails, for partials nested up to any depth. -/
theorem execution_undisturbed (c : Catalog) (tidy : c.Tidy) (depth : Nat) (ctx : Context) :
    (∀ t, ctx.Undisturbed (runTree c (runNested c depth) t ctx).2) ∧
      (∀ tail, ctx.Undisturbed (runTail c (runNested c depth) tail ctx).2) ∧
      ∀ body, ctx.Undisturbed (runTrees c (runNested c depth) body ctx).2 ∧
        ctx.Undisturbed (whole (runTrees c (runNested c depth) body) ctx).2 := by
  have nesting := calm_nested tidy depth
  refine ⟨fun t => ?_, fun tail => ?_, fun body => ?_⟩
  · have one := single_tree c (runNested c depth) (runNested c depth) (fun _ => True) t
      fun _ _ => trivial
    exact one.calm tidy nesting ctx
  · have one := single_tail c (runNested c depth) (runNested c depth) (fun _ => True) tail
      fun _ _ => trivial
    exact one.calm tidy nesting ctx
  · have calm := calm_trees tidy nesting body
    exact ⟨calm ctx, calm.keeps.whole ctx⟩

def stumbling : Catalog := Catalog.core.addFormatter "stumble"
  ⟨⟨false, fun _ => .ok ()⟩, .step fun _ vars ctx =>
    (.error (.plugin "stumble" "no way on"), (ctx.enter vars.first).write "...")⟩

theorem execution_undisturbed_stumbling :
    stumbling.Tidy ∧
      (Context.start .strict none .missing).Undisturbed
        (runTree stumbling (runNested stumbling 1)
          (.leaf ⟨1, 1⟩ (.output [.current] [⟨"stumble", .none⟩]))
          (Context.start .strict none .missing)).2 := by
  have tidy : stumbling.Tidy := Catalog.core_tidy.addFormatter fun _ vars ctx =>
    .inr ⟨_, [.ofNode vars.first], "...", rfl⟩
  exact ⟨tidy, (execution_undisturbed stumbling tidy 1 _).1 _⟩

end Step

end JsonTemplate

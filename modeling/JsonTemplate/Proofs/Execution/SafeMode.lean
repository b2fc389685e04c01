import JsonTemplate.Proofs.Execution.Completion
import JsonTemplate.Proofs.Template.Modes

namespace JsonTemplate

/-- A problem with an expression, which a strict run notes too. -/
def Diagnostic.OfExpression (d : Diagnostic) : Prop :=
  d.isRun .expressionParse ∨ d.isRun .expressionReduce

/-- A problem that ends a strict run. -/
structure Diagnostic.Ends (d : Diagnostic) : Prop where
  unreported : ¬ d.isRun .generalError
  serious : ¬ d.OfExpression

theorem Diagnostic.Ends.of_fault {d : Diagnostic} {fault : RunFault} (h : d.fault = .run fault)
    (other : fault ∉ [.generalError, .expressionParse, .expressionReduce]) : d.Ends := by
  have isRun_iff (g : RunFault) : d.isRun g ↔ fault = g := by simp [isRun, h]
  simp only [List.mem_cons, List.not_mem_nil, or_false, not_or] at other
  refine ⟨fun same => other.1 ((isRun_iff _).mp same), ?_⟩
  rintro (same | same)
  · exact other.2.1 ((isRun_iff _).mp same)
  · exact other.2.2 ((isRun_iff _).mp same)

theorem Diagnostic.not_ofExpression {d : Diagnostic} (h : d.ofCompile) : ¬ d.OfExpression := by
  obtain ⟨fault, place⟩ := d
  cases fault with
  | compile fault => rintro (same | same) <;> cases of_decide_eq_true same
  | run fault => cases h

namespace Context

def withSafe (safe : Bool) (ctx : Context) : Context :=
  { ctx with options := { ctx.options with safe } }

/-- A strict run without limits that has met no problem but with expressions. -/
structure Clean (ctx : Context) : Prop where
  strict : ctx.options.safe = false
  limiter : ctx.limiter = none
  minor : ∀ d ∈ ctx.problems, d.OfExpression

def Spoiled (ctx : Context) : Prop := ∃ d ∈ ctx.problems, ¬ d.OfExpression

theorem Spoiled.grow {before after : Context} (h : before.Spoiled)
    (grows : before.problems <+: after.problems) : after.Spoiled := by
  obtain ⟨d, member, serious⟩ := h
  exact ⟨d, grows.subset member, serious⟩

theorem Spoiled.note (ctx : Context) {d : Diagnostic} (serious : ¬ d.OfExpression) :
    (ctx.note d).Spoiled := ⟨d, List.mem_append_right _ List.mem_cons_self, serious⟩

theorem Spoiled.noteAll {found : List Diagnostic} {d : Diagnostic} (ctx : Context)
    (member : d ∈ found) (serious : ¬ d.OfExpression) :
    (found.foldl (fun ctx d => ctx.note d) ctx).Spoiled := by
  induction found generalizing ctx with
  | nil => cases member
  | cons e rest ih =>
    rcases List.mem_cons.mp member with rfl | later
    · have grown := foldl_note_advances (fun _ d => d) rest (ctx.note d)
      exact (Spoiled.note ctx serious).grow (Undisturbed.of_advances grown).problems
    · exact ih (ctx.note e) later

theorem Clean.note {ctx : Context} (h : ctx.Clean) {d : Diagnostic} (minor : d.OfExpression) :
    (ctx.note d).Clean where
  strict := h.strict
  limiter := h.limiter
  minor e member := by
    rcases List.mem_append.mp member with before | last
    · exact h.minor e before
    · rw [List.mem_singleton.mp last]
      exact minor

end Context

namespace Step

variable {α β : Type}

/-- The outcome of a step in a strict run, and in the safe run: the same, or a problem that ends the
one and spoils the other. -/
inductive Alike : Except Failure α × Context → Except Failure α × Context → Prop where
  | ok (a : α) {x : Context} : x.Clean → Alike (.ok a, x) (.ok a, x.withSafe true)
  | plugin {f : Failure} {x : Context} : f.OfPlugin → x.Clean →
      Alike (.error f, x) (.error f, x.withSafe true)
  | spoiled {f : Failure} {x : Context} {found : Except Failure α × Context} : ¬ f.OfPlugin →
      found.2.Spoiled → Alike (.error f, x) found

theorem Alike.map {l r : Except Failure α × Context} (h : Alike l r) (g : α → β) :
    Alike (l.1.map g, l.2) (r.1.map g, r.2) := by
  cases h with
  | ok a clean => exact .ok (g a) clean
  | plugin told clean => exact .plugin told clean
  | spoiled other spoiled => exact .spoiled other spoiled

theorem Alike.change {l r : Except Failure α × Context} (h : Alike l r) {f : Context → Context}
    (same : ∀ x : Context, f (x.withSafe true) = (f x).withSafe true)
    (clean : ∀ x : Context, x.Clean → (f x).Clean) (kept : ∀ x, (f x).problems = x.problems) :
    Alike (l.1, f l.2) (r.1, f r.2) := by
  cases h with
  | ok a now =>
    rw [same]
    exact .ok a (clean _ now)
  | plugin told now =>
    rw [same]
    exact .plugin told (clean _ now)
  | spoiled other spoiled =>
    obtain ⟨d, member, serious⟩ := spoiled
    refine .spoiled other ⟨d, ?_, serious⟩
    rw [kept]
    exact member

/-- Two steps that have the same outcome in a strict run and in a safe one. -/
structure Twins (s t : Step α) : Prop where
  alike : ∀ x : Context, x.Clean → Alike (s x) (t (x.withSafe true))
  kept : Keeps Context.KeepsBelow t

theorem Keeps.grows {s : Step α} (h : Keeps Context.KeepsBelow s) (ctx : Context) :
    ctx.problems <+: (s ctx).2.problems := by
  have grown := (h ctx).problems
  rcases outcome : s ctx with ⟨f | a, after⟩
  all_goals
    rw [outcome] at grown
    exact grown

section

variable {s t : Step α} {k l : α → Step β}

theorem twins_value (a : α) : Twins (pure a : Step α) (pure a) :=
  ⟨fun _ clean => .ok a clean, (calm_value a).keeps.below⟩

theorem twins_read {f : Context → α} (same : ∀ x : Context, f (x.withSafe true) = f x) :
    Twins (read f) (read f) := by
  refine ⟨fun x clean => ?_, (calm_read f).keeps.below⟩
  rw [read, read, same]
  exact .ok (f x) clean

theorem twins_modify {f : Context → Context}
    (same : ∀ x : Context, f (x.withSafe true) = (f x).withSafe true)
    (clean : ∀ x : Context, x.Clean → (f x).Clean) (kept : ∀ x : Context, x.KeepsBelow (f x)) :
    Twins (modify f) (modify f) := by
  refine ⟨fun x before => ?_, kept⟩
  rw [modify, modify, same]
  exact .ok () (clean x before)

theorem Twins.bind (first : Twins s t) (next : ∀ a, Twins (k a) (l a)) :
    Twins (s >>= k) (t >>= l) := by
  have kept : Keeps Context.KeepsBelow (t >>= l) :=
    .bind Context.KeepsBelow.trans Context.KeepsBelow.depth first.kept fun a => (next a).kept
  refine ⟨fun x clean => ?_, kept⟩
  have both := first.alike x clean
  generalize left : s x = strict at both
  generalize right : t (x.withSafe true) = safe at both
  cases both with
  | ok a now =>
    rw [bind_ok left, bind_ok right]
    exact (next a).alike _ now
  | plugin told now =>
    rw [bind_error left, bind_error right]
    exact .plugin told now
  | spoiled other spoiled =>
    -- The safe run may go on with the next step, which takes back nothing that is noted.
    rw [bind_error left]
    refine .spoiled other ?_
    rcases safe with ⟨f | a, middle⟩
    · rw [bind_error right]
      exact spoiled
    · rw [bind_ok right]
      exact spoiled.grow ((next a).kept.grows middle)

theorem Twins.within (h : Twins s t) (node : Node) : Twins (within node s) (within node t) := by
  refine ⟨fun x clean => ?_, (h.kept.within node).below⟩
  have both : Alike (s (x.enter node)) (t ((x.withSafe true).enter node)) :=
    h.alike (x.enter node) ⟨clean.strict, clean.limiter, clean.minor⟩
  generalize left : s (x.enter node) = strict at both
  generalize right : t ((x.withSafe true).enter node) = safe at both
  cases both with
  | ok a now =>
    rw [within_ok left, within_ok right]
    exact .ok a ⟨now.strict, now.limiter, now.minor⟩
  | plugin told now =>
    rw [within_error left, within_error right]
    exact .plugin told now
  | spoiled other spoiled =>
    rw [within_error left]
    refine .spoiled other ?_
    rcases safe with ⟨f | a, middle⟩
    · rw [within_error right]
      exact spoiled
    · rw [within_ok right]
      exact spoiled

theorem Twins.rounds {round round' : Bool → Step Unit}
    (h : ∀ last, Twins (round last) (round' last)) (i : Nat) (items : List Json.Value) :
    Twins (roundsOf round i items) (roundsOf round' i items) := by
  have numbered (i : Nat) : Twins (modify (Context.updateTop (Frame.setIndex (some i))))
      (modify (Context.updateTop (Frame.setIndex (some i)))) :=
    twins_modify (fun _ => rfl) (fun _ now => ⟨now.strict, now.limiter, now.minor⟩)
      fun x => .updateTop _ x
  exact roundsOf_related round round' (twins_value ()) numbered (fun last => (h last).within)
    (fun first next => first.bind fun _ => next) i items

theorem alike_refuse {d : Diagnostic} (ends : d.Ends) {x : Context} (clean : x.Clean) :
    Alike (refuse d x) (refuse d (x.withSafe true)) := by
  have strict : refuse d x = (.error (.problem d), x) := by
    rw [refuse, if_neg (by rw [clean.strict]; exact Bool.false_ne_true)]
  have safe : refuse d (x.withSafe true) = (.ok (), (x.withSafe true).note d) := rfl
  rw [strict, safe]
  exact .spoiled ends.unreported (.note _ ends.serious)

theorem twins_count : Twins count count := by
  refine ⟨fun x clean => ?_, (calm_of_advances count_advances).keeps.below⟩
  have safe : count (x.withSafe true) = (.ok (), x.withSafe true) := count_none clean.limiter
  rw [count_none clean.limiter, safe]
  exact .ok () clean

theorem twins_assign (vars : Bindings Node) :
    Twins (modify (assignAll vars)) (modify (assignAll vars)) := by
  have kept : Keeps Context.KeepsBelow (modify (assignAll vars)) :=
    (calm_of_advances (assignAll_advances vars)).keeps.below
  refine twins_modify (fun x => ?_) (fun x clean => ?_) kept
  · clear kept
    induction vars with
    | nil => rfl
    | cons var rest ih =>
      change (assignAll rest (x.withSafe true)).setVar _ _ = _
      rw [ih]
      rfl
  · clear kept
    induction vars with
    | nil => exact clean
    | cons var rest ih => exact ⟨ih.strict, ih.limiter, ih.minor⟩

theorem twins_noteProblems (program : Program) :
    Twins (noteProblems program) (noteProblems program) := by
  have kept := (calm_of_advances (noteProblems_advances program)).keeps.below
  unfold noteProblems at kept ⊢
  generalize program.problems = messages at kept
  refine twins_modify (fun x => ?_) (fun x clean => ?_) kept
  · clear kept
    induction messages generalizing x with
    | nil => rfl
    | cons message rest ih =>
      exact ih (x.note (((x.problem .expressionParse).withName program.source).withData message))
  · clear kept
    induction messages generalizing x with
    | nil => exact clean
    | cons message rest ih => exact ih _ (clean.note (.inl rfl))

theorem twins_evaluate (program : Program) : Twins (evaluate program) (evaluate program) := by
  refine ⟨fun x clean => ?_, (calm_of_advances (evaluate_advances program)).keeps.below⟩
  let scope := evaluationScope program.source
  have related : scope.Related scope fun e f =>
      f.context = e.context.withSafe true ∧ f.failures = e.failures ∧ e.context.Clean :=
    { lookup := fun name ⟨same, _, _⟩ => by
        change ExprValue.ofNode _ = ExprValue.ofNode _
        rw [same]
        rfl
      assign := fun name v ⟨same, count, now⟩ =>
        ⟨by simp only [scope, evaluationScope, same]; rfl, count,
          now.strict, now.limiter, now.minor⟩
      report := fun message ⟨same, count, now⟩ =>
        ⟨by simp only [scope, evaluationScope, same]; rfl,
          by simp only [scope, evaluationScope, count], now.note (.inr rfl)⟩ }
  obtain ⟨value, after, count, now⟩ := program.reduce_related related
    (s := ⟨x, 0⟩) (t := ⟨x.withSafe true, 0⟩) ⟨rfl, rfl, clean⟩
  unfold evaluate
  dsimp only
  rw [after, count, ← value]
  exact .ok _ now

theorem alike_report {d : Diagnostic} (ends : d.Ends) {x : Context} (clean : x.Clean) :
    Alike (report d x) (report d (x.withSafe true)) :=
  alike_refuse ends (x := { x with logged := x.logged ++ [d] })
    ⟨clean.strict, clean.limiter, clean.minor⟩

theorem unexpected_of_not_plugin {f : Failure} (h : ¬ f.OfPlugin) : f.unexpected? = none := by
  cases f with
  | plugin name message => exact absurd trivial h
  | problem d => exact if_neg h

theorem unexpected_ends (place : Text.Position) (source : List Char) (name message : String) :
    (unexpected place source name message).Ends := .of_fault rfl (by decide)

theorem Twins.instruction {s t : Step Unit} (h : Twins s t) (kept : Keeps Context.Undisturbed t)
    (place : Text.Position) (source : List Char) :
    Twins (instruction place source s) (instruction place source t) := by
  refine ⟨fun x clean => ?_, (kept.instruction place source).keeps.below⟩
  have counted : Twins (do count; s) (do count; t) := twins_count.bind fun _ => h
  have both : Alike ((do count; s : Step Unit) { x with place })
      ((do count; t : Step Unit) { x.withSafe true with place }) :=
    counted.alike { x with place } ⟨clean.strict, clean.limiter, clean.minor⟩
  generalize left : (do count; s : Step Unit) { x with place } = strict at both
  generalize right : (do count; t : Step Unit) { x.withSafe true with place } = safe at both
  cases both with
  | ok u now =>
    rw [instruction_ok left, instruction_ok right]
    exact .ok () ⟨now.strict, now.limiter, now.minor⟩
  | @plugin f after told now =>
    -- What was left is cut off in both runs; then the one ends with a report that the other notes.
    obtain ⟨⟨name, message⟩, reported⟩ := Failure.unexpected_of_plugin told
    have both := alike_report (unexpected_ends place source name message)
      (x := after.cut x.depth) ⟨now.strict, now.limiter, now.minor⟩
    rw [instruction_error left, instruction_error right, recover_eq, recover_eq, reported]
    exact both.change (f := fun after => { after with place := x.place }) (fun _ => rfl)
      (fun _ now => ⟨now.strict, now.limiter, now.minor⟩) fun _ => rfl
  | @spoiled f after found other spoiled =>
    have ended : recover place source x.depth f after = (.error f, after.cut x.depth) := by
      rw [recover_eq, unexpected_of_not_plugin other]
      rfl
    rw [instruction_error left, ended]
    refine .spoiled other ?_
    rcases safe with ⟨f' | u, middle⟩
    · have moved := recover_advances place source (x.withSafe true).depth f' middle
      rw [instruction_error right]
      exact spoiled.grow (Context.Undisturbed.of_advances moved).problems
    · rw [instruction_ok right]
      exact spoiled

theorem Twins.whole {s t : Step Unit} (h : Twins s t) (kept : Keeps Context.Undisturbed t) :
    Twins (whole s) (whole t) :=
  ⟨fun x clean => (h.instruction kept x.place []).alike x clean, kept.whole.keeps.below⟩

theorem findPartial_alike (c : Catalog) (name : String) {x : Context} (clean : x.Clean) :
    (∃ found after, x.findPartial c name = (.ok found, after) ∧ after.Clean ∧
        (x.withSafe true).findPartial c name = (.ok found, after.withSafe true)) ∨
      ∃ d after, x.findPartial c name = (.error d, after) ∧
        ((x.withSafe true).findPartial c name).2.Spoiled := by
  have frames : (x.withSafe true).frames = x.frames := rfl
  have compiled : (x.withSafe true).compiled = x.compiled := rfl
  have partials : (x.withSafe true).options.partials = x.options.partials := rfl
  unfold Context.findPartial
  rw [frames, compiled, partials]
  cases x.frames.macro? name with
  | some body => exact .inl ⟨some body, x, rfl, clean, rfl⟩
  | none =>
    cases x.compiled.get? name with
    | some body => exact .inl ⟨some body, x, rfl, clean, rfl⟩
    | none =>
      cases x.options.partials.get? name with
      | none => exact .inl ⟨none, x, rfl, clean, rfl⟩
      | some source =>
        have strictly : Context.compileSource c x.options source =
            Compiled.compile c.vocabulary ⟨false, false, x.options.expr⟩ source.toList := by
          rw [Context.compileSource, clean.strict]
        have leniently : Context.compileSource c (x.withSafe true).options source =
            Compiled.compile c.vocabulary ⟨true, false, x.options.expr⟩ source.toList := rfl
        dsimp only
        cases outcome :
            Compiled.compile c.vocabulary ⟨false, false, x.options.expr⟩ source.toList with
        | ok compiled =>
          obtain ⟨same, faultless⟩ := Compiled.compile_lenient_of_ok outcome
          have quiet (y : Context) : y.noteFaulty name compiled.problems = y := by
            rw [faultless]
            rfl
          rw [strictly, leniently, outcome, same]
          dsimp only
          rw [quiet, quiet]
          exact .inl ⟨_, _, rfl, ⟨clean.strict, clean.limiter, clean.minor⟩, rfl⟩
        | error d =>
          obtain ⟨-, compiled, same, member⟩ := Compiled.compile_lenient_of_error outcome
          have faulty : compiled.problems.isEmpty = false :=
            List.isEmpty_eq_false_iff.mpr (List.ne_nil_of_mem member)
          have told (y : Context) : (y.noteFaulty name compiled.problems).Spoiled := by
            rw [Context.noteFaulty, faulty]
            have ends : (((y.problem .compilePartialSyntax).withName name).withCauses
                compiled.problems).Ends := .of_fault rfl (by decide)
            exact .note y ends.serious
          rw [strictly, leniently, outcome, same]
          exact .inr ⟨d, _, rfl, told _⟩

theorem twins_obtainPartial (c : Catalog) {missing faulty : RunFault} (name : String)
    (ends : ∀ d : Diagnostic, d.fault = .run missing → d.Ends)
    (ends' : ∀ d : Diagnostic, d.fault = .run faulty → d.Ends) :
    Twins (obtainPartial c missing faulty name) (obtainPartial c missing faulty name) := by
  refine ⟨fun x clean => ?_, (calm_obtainPartial c missing faulty name).keeps.below⟩
  rcases findPartial_alike c name clean with
    ⟨found, after, left, now, right⟩ | ⟨d, after, left, spoiled⟩
  · rw [obtainPartial_eq, obtainPartial_eq, left, right]
    cases found with
    | some body => exact .ok (some body) now
    | none => exact (alike_refuse (ends _ rfl) now).map _
  · have grown := obtainPartial_advances c missing faulty name (x.withSafe true)
    rw [obtainPartial_eq c missing faulty name x, left]
    exact .spoiled (ends' _ rfl).unreported
      (spoiled.grow (Context.Undisturbed.of_advances grown).problems)

theorem Twins.asPartial {s t : Step α} (h : Twins s t) (calm : Calm t) (name : String) :
    Twins (asPartial name s) (asPartial name t) := by
  refine ⟨fun x clean => ?_, (calm.asPartial name).keeps.below⟩
  cases busy : x.active.contains name with
  | true =>
    have busy' : (x.withSafe true).active.contains name = true := busy
    have ends : ((x.problem .applyPartialRecursion).withName name).Ends :=
      .of_fault rfl (by decide)
    rw [asPartial_refused busy, asPartial_refused busy']
    exact (alike_refuse ends clean).map _
  | false =>
    have busy' : (x.withSafe true).active.contains name = false := busy
    have both :=
      h.alike { x with active := name :: x.active } ⟨clean.strict, clean.limiter, clean.minor⟩
    rw [asPartial_entered busy, asPartial_entered busy']
    exact (both.map some).change (fun _ => rfl)
      (fun _ now => ⟨now.strict, now.limiter, now.minor⟩) fun _ => rfl

theorem Twins.capture {s t : Step Unit} (h : Twins s t) (calm : Calm t) (frame : Frame) :
    Twins (capture frame s) (capture frame t) := by
  refine ⟨fun x clean => ?_, (calm.capture frame).keeps.below⟩
  have both : Alike (s { x.push frame with output := "" })
      (t { (x.withSafe true).push frame with output := "" }) :=
    h.alike { x.push frame with output := "" } ⟨clean.strict, clean.limiter, clean.minor⟩
  unfold Step.capture
  generalize s { x.push frame with output := "" } = strict at both
  generalize t { (x.withSafe true).push frame with output := "" } = safe at both
  cases both with
  | ok u now => exact .ok _ ⟨now.strict, now.limiter, now.minor⟩
  | plugin told now => exact .plugin told ⟨now.strict, now.limiter, now.minor⟩
  | spoiled other spoiled => exact .spoiled other spoiled

theorem Twins.silent {s t : Step Unit} (h : Twins s t) (calm : Calm t) :
    Twins (silent s) (silent t) := by
  refine ⟨fun x clean => ?_, calm.silent.keeps.below⟩
  have both : Alike (s { x with output := "" }) (t { x.withSafe true with output := "" }) :=
    h.alike { x with output := "" } ⟨clean.strict, clean.limiter, clean.minor⟩
  exact both.change (f := fun after => { after with output := x.output }) (fun _ => rfl)
    (fun _ now => ⟨now.strict, now.limiter, now.minor⟩) fun _ => rfl

end

section

variable {nested : Nested}

theorem twins_test (call : Call) : Twins (Catalog.core.test call) (Catalog.core.test call) := by
  refine ⟨fun x clean => ?_, (calm_of_advances (test_advances _ call)).keeps.below⟩
  unfold Catalog.test
  cases known : Catalog.core.predicate? call.name with
  | none => exact .ok false clean
  | some p =>
    obtain ⟨predicate, rfl⟩ := exists_of_get? known
    exact .ok (predicate.holds x.resolve call.args) clean

theorem twins_formatter (twins : ∀ name body, Twins (nested name body) (nested name body))
    (calm : ∀ name body, Calm (nested name body)) (call : Call) (vars : Variables) :
    Twins (applyFormatter Catalog.core nested call vars)
      (applyFormatter Catalog.core nested call vars) := by
  unfold applyFormatter
  cases known : Catalog.core.formatter? call.name with
  | none => exact twins_value vars
  | some f =>
    obtain ⟨formatter, rfl⟩ := exists_of_get? known
    rw [Option.map_some, CoreFormatter.toFormatter]
    rcases formatter.transform_cases with same | same
    all_goals
      rw [same]
      dsimp only
    · refine .bind ?_ fun node => twins_value _
      refine .bind (twins_obtainPartial _ _ (fun _ fault => .of_fault fault (by decide))
        fun _ fault => .of_fault fault (by decide)) fun found => ?_
      cases found with
      | none => exact twins_value _
      | some body =>
        have kept := (calm call.args.first body).keeps
        have printed := ((twins call.args.first body).whole kept).capture kept.whole
          (partialFrame (call.args.values.drop 1) vars.first)
        refine (printed.asPartial (kept.whole.capture _) _).bind fun text => ?_
        cases text <;> exact twins_value _
    · have calm := calm_compute (fun ctx => formatter.compute ctx.resolve call.args vars.first) vars
      refine ⟨fun x clean => ?_, calm.keeps.below⟩
      have blind : (x.withSafe true).resolve = x.resolve := rfl
      rw [compute_eq, compute_eq, blind]
      cases outcome : formatter.compute x.resolve call.args vars.first with
      | ok node => exact .ok _ clean
      | error failure => exact .plugin (CoreFormatter.ofPlugin_of_compute outcome) clean

theorem twins_include (twins : ∀ name body, Twins (nested name body) (nested name body))
    (calm : ∀ name body, Calm (nested name body)) (name : String) (output : Bool) :
    Twins (runInclude Catalog.core nested name output)
      (runInclude Catalog.core nested name output) := by
  refine .bind (twins_read fun _ => rfl) fun includes => ?_
  split
  · refine .bind (twins_obtainPartial _ _ (fun _ fault => .of_fault fault (by decide))
      fun _ fault => .of_fault fault (by decide)) fun found => ?_
    cases found with
    | none => exact twins_value ()
    | some body =>
      have executed : Calm (do let _ ← asPartial name (nested name body)) :=
        ((calm name body).asPartial name).bind fun _ => calm_value ()
      have inside : Twins (do let _ ← asPartial name (nested name body))
          (do let _ ← asPartial name (nested name body)) :=
        ((twins name body).asPartial (calm name body) name).bind fun _ => twins_value ()
      cases output with
      | true => exact inside
      | false => exact inside.silent executed
  · exact twins_value ()

theorem Mirror.twins {names : String → Prop}
    (twins : ∀ name body, Twins (nested name body) (nested name body))
    (calm : ∀ name body, Calm (nested name body)) {s t : Step α}
    (h : Mirror Catalog.core nested nested names s t) : Twins s t := by
  induction h with
  | value a => exact twins_value a
  | bind _ _ first next => exact first.bind next
  | look f blind => exact twins_read fun x => blind _ _ (.refl x.frames.bare) rfl
  | count => exact twins_count
  | test call => exact twins_test call
  | write text =>
    exact twins_modify (fun _ => rfl) (fun _ now => ⟨now.strict, now.limiter, now.minor⟩)
      fun x => (Context.Undisturbed.of_advances (.write text .refl)).toKeepsBelow
  | assign vars => exact twins_assign vars
  | define name body _ =>
    exact twins_modify (fun _ => rfl) (fun _ now => ⟨now.strict, now.limiter, now.minor⟩)
      fun x => .updateTop _ x
  | noteProblems program => exact twins_noteProblems program
  | evaluate program => exact twins_evaluate program
  | within node _ inside => exact inside.within node
  | rounds node i items _ same => exact (Twins.rounds same i items).within node
  | instruction place source mirror inside =>
    exact inside.instruction (mirror.symm.keeps Catalog.core_tidy calm) place source
  | format call vars => exact twins_formatter twins calm call vars
  | includePartial name output => exact twins_include twins calm name output

theorem twins_trees (twins : ∀ name body, Twins (nested name body) (nested name body))
    (calm : ∀ name body, Calm (nested name body)) (body : List Tree) :
    Twins (runTrees Catalog.core nested body) (runTrees Catalog.core nested body) :=
  (mirror_trees Catalog.core nested nested (fun _ => True) body fun _ _ => trivial).twins twins calm

theorem twins_nested (depth : Nat) (name : String) (body : List Tree) :
    Twins (runNested Catalog.core depth name body) (runNested Catalog.core depth name body) := by
  induction depth generalizing name body with
  | zero =>
    refine ⟨fun x clean => ?_, (calm_nested Catalog.core_tidy 0 name body).keeps.below⟩
    have ends : ((x.problem .applyPartialRecursion).withName name).Ends :=
      .of_fault rfl (by decide)
    exact alike_refuse ends clean
  | succ depth ih => exact twins_trees ih (calm_nested Catalog.core_tidy depth) body

end

end Step

namespace Context

theorem run_grows (t : Template) (ctx : Context) :
    ctx.problems <+: (ctx.run .core t).2.problems := by
  have nesting := Step.calm_nested Catalog.core_tidy (ctx.nestingLimit .core t.body)
  have calm := (Step.calm_trees Catalog.core_tidy nesting t.body).keeps.whole
  rw [run_state]
  exact (calm ctx).problems

/-- The outcome of a strict run and of the safe run: the same, or a problem that ends the one while
the other is spoiled. -/
inductive RunAlike :
    Except Diagnostic Unit × Context → Except Diagnostic Unit × Context → Prop where
  | ok {x : Context} : x.Clean → RunAlike (.ok (), x) (.ok (), x.withSafe true)
  | spoiled {d : Diagnostic} {x : Context} {found : Except Diagnostic Unit × Context} :
      found.2.Spoiled → RunAlike (.error d, x) found

theorem run_alike (t : Template) {x : Context} (clean : x.Clean) :
    RunAlike (x.run .core t) ((x.withSafe true).run .core t) := by
  -- The two runs may have different limits on nesting, so both are brought to the greater one.
  let limit := x.nestingLimit .core t.body
  let limit' := (x.withSafe true).nestingLimit .core t.body
  let code := Step.whole (Step.runTrees .core (Step.runNested .core (max limit limit')) t.body)
  have strictly : code x = Step.runBody .core t.body x :=
    Step.runBody_eq Catalog.core_tidy t.body (Nat.le_max_left limit limit')
  have safely : code (x.withSafe true) = Step.runBody .core t.body (x.withSafe true) :=
    Step.runBody_eq Catalog.core_tidy t.body (Nat.le_max_right limit limit')
  have calm := Step.calm_nested Catalog.core_tidy (max limit limit')
  have both : Step.Alike (code x) (code (x.withSafe true)) :=
    (Step.twins_trees (Step.twins_nested (max limit limit')) calm t.body).whole
      (Step.calm_trees Catalog.core_tidy calm t.body).keeps |>.alike x clean
  have forgiving : (x.withSafe true).Forgiving := .of_unlimited rfl clean.limiter
  obtain ⟨last, done, -⟩ := run_completes Catalog.core_contained t forgiving
  rw [strictly, safely] at both
  generalize left : Step.runBody .core t.body x = strict at both
  generalize right : Step.runBody .core t.body (x.withSafe true) = safe at both
  cases both with
  | ok u now =>
    rw [run, run, left, right]
    exact .ok now
  | @plugin f after told now =>
    rw [run, right] at done
    cases f <;> cases done
  | @spoiled f after found other spoiled =>
    cases f with
    | plugin name message => exact absurd trivial other
    | problem d =>
      have ended : x.run .core t = (.error d, after) := by rw [run, left]
      rw [ended]
      refine .spoiled ?_
      rw [run_state, right]
      exact spoiled

theorem runSource_alike (source : String) {x : Context} (clean : x.Clean) :
    RunAlike (x.runSource .core source) ((x.withSafe true).runSource .core source) := by
  have strictly : compileSource .core x.options source =
      Compiled.compile Catalog.core.vocabulary ⟨false, false, x.options.expr⟩ source.toList := by
    rw [compileSource, clean.strict]
  have safely : compileSource .core (x.withSafe true).options source =
      Compiled.compile Catalog.core.vocabulary ⟨true, false, x.options.expr⟩ source.toList := rfl
  cases outcome : Compiled.compile Catalog.core.vocabulary ⟨false, false, x.options.expr⟩
      source.toList with
  | ok compiled =>
    obtain ⟨same, faultless⟩ := Compiled.compile_lenient_of_ok outcome
    rw [runSource, runSource, strictly, safely, outcome, same]
    dsimp only
    rw [faultless]
    exact run_alike compiled.template clean
  | error d =>
    obtain ⟨staged, compiled, same, member⟩ := Compiled.compile_lenient_of_error outcome
    rw [runSource, runSource, strictly, safely, outcome, same]
    refine .spoiled ?_
    have noted : (compiled.problems.foldl (fun ctx d => ctx.note d) (x.withSafe true)).Spoiled :=
      .noteAll _ member (Diagnostic.not_ofExpression staged)
    exact noted.grow (run_grows compiled.template _)

/-- A strict run succeeds exactly where the safe run of the same template has noted no problem but
with expressions. Both have the same output and the same problems then. -/
theorem strict_run_iff_safe (source : String) (options : RunOptions) (node : Node) :
    let strict := (start { options with safe := false } none node).runSource .core source
    let safe := (start { options with safe := true } none node).runSource .core source
    (strict.1 = .ok () ↔ ∀ d ∈ safe.2.problems, d.OfExpression) ∧
      (strict.1 = .ok () → safe.1 = .ok () ∧ safe.2.output = strict.2.output ∧
        safe.2.problems = strict.2.problems) := by
  have clean : (start { options with safe := false } none node).Clean := ⟨rfl, rfl, nofun⟩
  have both : RunAlike ((start { options with safe := false } none node).runSource .core source)
      ((start { options with safe := true } none node).runSource .core source) :=
    runSource_alike source clean
  generalize
    (start { options with safe := false } none node).runSource .core source = strict at both
  generalize (start { options with safe := true } none node).runSource .core source = safe at both
  cases both with
  | ok now => exact ⟨⟨fun _ => now.minor, fun _ => rfl⟩, fun _ => ⟨rfl, rfl, rfl⟩⟩
  | spoiled spoiled =>
    obtain ⟨e, member, serious⟩ := spoiled
    exact ⟨⟨nofun, fun all => absurd (all e member) serious⟩, nofun⟩

end Context

end JsonTemplate

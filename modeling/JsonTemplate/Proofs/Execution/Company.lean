import JsonTemplate.Proofs.Execution.Manner

namespace JsonTemplate

/-- What a run keeps for itself among companions. -/
structure Account where
  problems : List Diagnostic
  compiled : Bindings (List Tree)
  compileCount : Nat

namespace Account

def noteAll (found : List Diagnostic) (a : Account) : Account :=
  { a with problems := a.problems ++ found }

@[simp] theorem noteAll_nil (a : Account) : a.noteAll [] = a := by simp [noteAll]

@[simp] theorem noteAll_noteAll (a : Account) (first second : List Diagnostic) :
    (a.noteAll first).noteAll second = a.noteAll (first ++ second) := by
  simp [noteAll, List.append_assoc]

end Account

namespace Context

def account (ctx : Context) : Account := ⟨ctx.problems, ctx.compiled, ctx.compileCount⟩

def keeping (a : Account) (ctx : Context) : Context :=
  { ctx with problems := a.problems, compiled := a.compiled, compileCount := a.compileCount }

@[simp] theorem account_keeping (a : Account) (ctx : Context) : (ctx.keeping a).account = a := rfl

@[simp] theorem keeping_account (ctx : Context) : ctx.keeping ctx.account = ctx := rfl

end Context

/-- A report that a partial is faulty. -/
def Diagnostic.isFaultReport (d : Diagnostic) : Bool := d.isRun .compilePartialSyntax

/-- Companions of a run, each with a search of its own. -/
structure Company (ι : Type) where
  search : ι → Search
  Going : RunOptions → Account → (ι → Account) → Prop
  Ended : RunOptions → Account → (ι → Account) → Prop

namespace Company

variable {ι : Type} (G : Company ι)

def Onward {α : Type} (o : RunOptions) (a : Account) (r : ι → Account) : Except Failure α → Prop
  | .ok _ => G.Going o a r
  | .error f => G.Going o a r ∨ f.unexpected? = none ∧ G.Ended o a r

/-- What keeps the accounts together. Only a search notes that a partial is faulty. -/
structure Lawful (c : Catalog) : Prop where
  ended : ∀ {o a r}, G.Going o a r → G.Ended o a r
  note : ∀ {o a r} (found : List Diagnostic), (∀ d ∈ found, d.isFaultReport = false) →
    G.Going o a r → G.Going o (a.noteAll found) fun i => (r i).noteAll found
  find : ∀ (name : String) (x : Context) {r}, G.Going x.options x.account r →
    ∃ result x' r', x.findPartial c name = (result, x') ∧ x'.options = x.options ∧
      (∀ i, G.search i name (x.keeping (r i)) = (result, x'.keeping (r' i))) ∧
        match result with
        | .ok _ => G.Going x'.options x'.account r'
        | .error _ => G.Ended x'.options x'.account r'

end Company

namespace Step

variable {ι α β : Type} {G : Company ι}

def InCompany (G : Company ι) (s : Step α) (t : ι → Step α) : Prop :=
  ∀ x r, G.Going x.options x.account r → ∃ result x' r', s x = (result, x') ∧
    (∀ i, t i (x.keeping (r i)) = (result, x'.keeping (r' i))) ∧
      G.Onward x'.options x'.account r' result

def Notes (s : Step α) : Prop :=
  ∀ x : Context, ∃ (result : Except Failure α) (x' : Context) (found : List Diagnostic),
    (∀ d ∈ found, d.isFaultReport = false) ∧ x'.options = x.options ∧
      x'.account = x.account.noteAll found ∧
      ∀ a, s (x.keeping a) = (result, x'.keeping (a.noteAll found))

section

variable {c : Catalog} {s : Step α} {t : ι → Step α} {k : α → Step β} {l : ι → α → Step β}

theorem Notes.inCompany (lawful : G.Lawful c) (h : Notes s) : InCompany G s fun _ => s := by
  intro x r going
  obtain ⟨result, x', found, plain, options, account, every⟩ := h x
  have noted := lawful.note found plain going
  rw [← account, ← options] at noted
  refine ⟨result, x', fun i => (r i).noteAll found, ?_, fun i => every (r i), ?_⟩
  · have own := every x.account
    rwa [← account] at own
  · cases result with
    | ok a => exact noted
    | error f => exact .inl noted

theorem inCompany_value (a : α) : InCompany G (pure a) fun _ => pure a :=
  fun x r going => ⟨.ok a, x, r, rfl, fun _ => rfl, going⟩

theorem InCompany.bind (first : InCompany G s t) (next : ∀ a, InCompany G (k a) fun i => l i a) :
    InCompany G (s >>= k) fun i => t i >>= l i := by
  intro x r going
  obtain ⟨result, x', r', left, right, onward⟩ := first x r going
  cases result with
  | error f => exact ⟨.error f, x', r', bind_error left, fun i => bind_error (right i), onward⟩
  | ok a =>
    obtain ⟨last, y, q, left', right', further⟩ := next a x' r' onward
    exact ⟨last, y, q, (bind_ok left).trans left', fun i => (bind_ok (right i)).trans (right' i),
      further⟩

theorem InCompany.wrap (h : InCompany G s t) (enter : Context → Context)
    (leave : Context → Context → Context) (g : Context → α → β)
    (enters : ∀ x, (enter x).account = x.account ∧ (enter x).options = x.options)
    (entersBeside : ∀ x a, enter (x.keeping a) = (enter x).keeping a)
    (leaves : ∀ x y, (leave x y).account = y.account ∧ (leave x y).options = y.options)
    (leavesBeside : ∀ x y a b, leave (x.keeping a) (y.keeping b) = (leave x y).keeping b)
    (same : ∀ y a, g (y.keeping a) = g y) :
    InCompany G
      (fun x => ((s (enter x)).1.map (g (s (enter x)).2), leave x (s (enter x)).2))
      fun i x => ((t i (enter x)).1.map (g (t i (enter x)).2), leave x (t i (enter x)).2) := by
  intro x r going
  have inside : G.Going (enter x).options (enter x).account r := by
    rw [(enters x).1, (enters x).2]
    exact going
  obtain ⟨result, y, q, left, right, onward⟩ := h (enter x) r inside
  refine ⟨result.map (g y), leave x y, q, ?_, fun i => ?_, ?_⟩
  · simp only [left]
  · simp only [entersBeside, right i, same, leavesBeside]
  · rw [(leaves x y).1, (leaves x y).2]
    cases result <;> exact onward

theorem notes_look {f : Context → Except Failure α}
    (same : ∀ x a, f (Context.keeping a x) = f x) : Notes fun x => (f x, x) :=
  fun x => ⟨f x, x, [], by simp, rfl, by simp, fun a => by simp [same]⟩

theorem notes_value (a : α) : Notes (pure a : Step α) := notes_look fun _ _ => rfl

theorem notes_read {f : Context → α} (same : ∀ x a, f (Context.keeping a x) = f x) :
    Notes (read f) := notes_look fun x a => congrArg Except.ok (same x a)

theorem notes_modify {f : Context → Context}
    (still : ∀ x, (f x).account = x.account ∧ (f x).options = x.options)
    (beside : ∀ x a, f (Context.keeping a x) = (f x).keeping a) : Notes (modify f) :=
  fun x => ⟨.ok (), f x, [], by simp, (still x).2, by simp [still x],
    fun a => by simp [modify, beside]⟩

theorem Notes.bind (first : Notes s) (next : ∀ a, Notes (k a)) : Notes (s >>= k) := by
  intro x
  obtain ⟨result, y, found, plain, options, account, every⟩ := first x
  cases result with
  | error f => exact ⟨.error f, y, found, plain, options, account, fun a => bind_error (every a)⟩
  | ok a =>
    obtain ⟨last, z, more, plain', options', account', every'⟩ := next a y
    refine ⟨last, z, found ++ more, ?_, options'.trans options, ?_, fun b => ?_⟩
    · intro d member
      rcases List.mem_append.mp member with early | late
      · exact plain d early
      · exact plain' d late
    · rw [account', account, Account.noteAll_noteAll]
    · rw [bind_ok (every b), every', Account.noteAll_noteAll]

theorem notes_refuse {f : Context → Diagnostic} (same : ∀ x a, f (Context.keeping a x) = f x)
    (other : ∀ x, (f x).isFaultReport = false) : Notes fun x => refuse (f x) x := by
  intro x
  by_cases safe : x.options.safe = true
  · refine ⟨.ok (), x.note (f x), [f x], by simp [other], rfl, rfl, fun a => ?_⟩
    have still : (x.keeping a).options.safe = true := safe
    simp only [refuse, same, still, if_true]
    rfl
  · refine ⟨.error (.problem (f x)), x, [], by simp, rfl, by simp, fun a => ?_⟩
    have still : ¬(x.keeping a).options.safe = true := safe
    simp [refuse, same, still]

theorem notes_count : Notes count := by
  intro x
  cases limited : x.limiter with
  | none =>
    refine ⟨.ok (), x, [], by simp, rfl, by simp, fun a => ?_⟩
    rw [count_none (show (x.keeping a).limiter = none from limited), Account.noteAll_nil]
  | some l =>
    refine ⟨verdict x.place l.check.2, { x with limiter := some l.check.1 }, [], by simp, rfl,
      by simp [Context.account, Account.noteAll], fun a => ?_⟩
    rw [count_some (show (x.keeping a).limiter = some l from limited), Account.noteAll_nil]
    rfl

theorem notes_set (name : String) (node : Node) : Notes (modify (Context.setVar name node)) :=
  notes_modify (fun _ => ⟨rfl, rfl⟩) fun _ _ => rfl

theorem notes_assign (vars : Bindings Node) : Notes (modify (assignAll vars)) := by
  induction vars with
  | nil => exact notes_value ()
  | cons var rest ih => exact ih.bind fun _ => notes_set var.1 var.2

theorem notes_noteProblems (program : Program) : Notes (noteProblems program) := by
  unfold noteProblems
  induction program.problems with
  | nil => exact notes_value ()
  | cons message more ih =>
    let told (x : Context) : Diagnostic :=
      ((x.problem .expressionParse).withName program.source).withData message
    have one : Notes (modify fun ctx => ctx.note (told ctx)) := by
      refine fun x => ⟨.ok (), x.note (told x), [told x], ?_, rfl, rfl, fun _ => rfl⟩
      intro d member
      rw [List.mem_singleton.mp member]
      rfl
    exact one.bind fun _ => ih

theorem notes_evaluate (program : Program) : Notes (evaluate program) := by
  intro x
  let scope := evaluationScope program.source
  let outcome := program.reduce scope ⟨x, 0⟩
  -- The notes are what the evaluation has added to the problems of the leading run.
  have beside (a : Account) : ∃ found, (∀ d ∈ found, d.isFaultReport = false) ∧
      outcome.2.context.options = x.options ∧
        outcome.2.context.account = x.account.noteAll found ∧
          program.reduce scope ⟨x.keeping a, 0⟩ =
            (outcome.1, ⟨outcome.2.context.keeping (a.noteAll found), outcome.2.failures⟩) := by
    have related : scope.Related scope fun e f => ∃ found, (∀ d ∈ found, d.isFaultReport = false) ∧
        e.context.options = x.options ∧ e.context.account = x.account.noteAll found ∧
          f = ⟨e.context.keeping (a.noteAll found), e.failures⟩ :=
      { lookup := fun name ⟨found, _, _, _, same⟩ => by
          rw [same]
          rfl
        assign := fun name v ⟨found, plain, options, account, same⟩ =>
          ⟨found, plain, options, account, by rw [same]; rfl⟩
        report := fun {e f} message ⟨found, plain, options, account, same⟩ => by
          let d := ((e.context.problem .expressionReduce).withName program.source).withData message
          refine ⟨found ++ [d], ?_, options, ?_, ?_⟩
          · intro other member
            rcases List.mem_append.mp member with early | late
            · exact plain other early
            · rw [List.mem_singleton.mp late]
              rfl
          · rw [← Account.noteAll_noteAll, ← account]
            rfl
          · rw [same, ← Account.noteAll_noteAll]
            rfl }
    obtain ⟨value, found, plain, options, account, same⟩ := program.reduce_related related
      (s := ⟨x, 0⟩) (t := ⟨x.keeping a, 0⟩) ⟨[], by simp, rfl, by simp, by simp⟩
    exact ⟨found, plain, options, account, Prod.ext value.symm same⟩
  obtain ⟨found, plain, options, account, -⟩ := beside x.account
  refine ⟨.ok (outcome.1, outcome.2.failures), outcome.2.context, found, plain, options, account,
    fun a => ?_⟩
  obtain ⟨again, -, -, account', same⟩ := beside a
  have notes : again = found := by
    have both := congrArg Account.problems (account'.symm.trans account)
    exact List.append_cancel_left both
  rw [evaluate, same, notes]

theorem Atom.notes (h : Atom s) : Notes s := by
  cases h with
  | look f blind => exact notes_read fun x a => blind _ _ (.refl x.frames.bare) rfl
  | count => exact notes_count
  | write text => exact notes_modify (fun _ => ⟨rfl, rfl⟩) fun _ _ => rfl
  | assign vars => exact notes_assign vars
  | define name body => exact notes_modify (fun _ => ⟨rfl, rfl⟩) fun _ _ => rfl
  | noteProblems program => exact notes_noteProblems program
  | evaluate program => exact notes_evaluate program

theorem InCompany.within (h : InCompany G s t) (node : Node) :
    InCompany G (within node s) fun i => within node (t i) := by
  have entered : InCompany G (modify (Context.enter node)) fun _ => modify (Context.enter node) :=
    fun x r going => ⟨.ok (), x.enter node, r, rfl, fun _ => rfl, going⟩
  have left : InCompany G (modify Context.pop) fun _ => modify Context.pop :=
    fun x r going => ⟨.ok (), x.pop, r, rfl, fun _ => rfl, going⟩
  exact entered.bind fun _ => h.bind fun a => left.bind fun _ => inCompany_value a

theorem InCompany.rounds {round : Bool → Step Unit} {round' : ι → Bool → Step Unit}
    (h : ∀ last, InCompany G (round last) fun i => round' i last) (i : Nat)
    (items : List Json.Value) :
    InCompany G (roundsOf round i items) fun j => roundsOf (round' j) i items := by
  induction items generalizing i with
  | nil => exact inCompany_value ()
  | cons item more ih =>
    have numbered : InCompany G (modify (Context.updateTop (Frame.setIndex (some i)))) fun _ =>
        modify (Context.updateTop (Frame.setIndex (some i))) :=
      fun x r going => ⟨.ok (), _, r, rfl, fun _ => rfl, going⟩
    exact numbered.bind fun _ => ((h more.isEmpty).within _).bind fun _ => ih (i + 1)

end

section

variable {c : Catalog} {place : Text.Position} {source : List Char}

theorem notes_report {d : Diagnostic} (other : d.isFaultReport = false) : Notes (report d) := by
  have logged : Notes (modify fun ctx => { ctx with logged := ctx.logged ++ [d] }) :=
    notes_modify (fun _ => ⟨rfl, rfl⟩) fun _ _ => rfl
  exact logged.bind fun _ => notes_refuse (fun _ _ => rfl) fun _ => other

theorem notes_recover (place : Text.Position) (source : List Char) (depth : Nat) (f : Failure) :
    Notes (recover place source depth f) := by
  have cut : Notes (modify fun ctx => { ctx with frames := ctx.frames.truncate depth }) :=
    notes_modify (fun _ => ⟨rfl, rfl⟩) fun _ _ => rfl
  refine cut.bind fun _ => ?_
  cases f.unexpected? with
  | none => exact fun x => ⟨.error f, x, [], by simp, rfl, by simp, fun a => by simp; rfl⟩
  | some told => exact notes_report rfl

theorem InCompany.instruction (lawful : G.Lawful c) {s : Step Unit} {t : ι → Step Unit}
    (h : InCompany G s t) :
    InCompany G (instruction place source s) fun i => instruction place source (t i) := by
  intro x r going
  have counted : InCompany G (do count; s) fun i => (do count; t i) :=
    (notes_count.inCompany lawful).bind fun _ => h
  let located (o : Except Failure Unit × Context) := (o.1, { o.2 with place := x.place })
  obtain ⟨result, y, q, left, right, onward⟩ := counted { x with place } r going
  have right (i : ι) : (do count; t i : Step Unit) { x.keeping (r i) with place } =
      (result, y.keeping (q i)) := right i
  cases result with
  | ok u =>
    exact ⟨.ok (), { y with place := x.place }, q, instruction_ok left,
      fun i => instruction_ok (right i), onward⟩
  | error f =>
    rcases onward with onward | ⟨other, ended⟩
    · have recovered := (notes_recover place source x.depth f).inCompany
        lawful y q onward
      obtain ⟨result, z, p, handled, handled', further⟩ := recovered
      exact ⟨result, { z with place := x.place }, p,
        (instruction_error left).trans (congrArg located handled),
        fun i => (instruction_error (right i)).trans (congrArg located (handled' i)), further⟩
    · have fails (z : Context) : recover place source x.depth f z = (.error f, z.cut x.depth) := by
        rw [recover_eq, other]
        rfl
      exact ⟨.error f, { y.cut x.depth with place := x.place }, q,
        (instruction_error left).trans (congrArg located (fails y)),
        fun i => (instruction_error (right i)).trans (congrArg located (fails _)),
        .inr ⟨other, ended⟩⟩

theorem InCompany.whole (lawful : G.Lawful c) {s : Step Unit} {t : ι → Step Unit}
    (h : InCompany G s t) : InCompany G (whole s) fun i => whole (t i) :=
  fun x => h.instruction lawful x

end

section

variable {c : Catalog} {s : Step α} {t : ι → Step α}

theorem inCompany_obtainPartial (lawful : G.Lawful c) {missing faulty : RunFault} (name : String)
    (wrong : faulty ≠ .generalError) (missed : missing ≠ .compilePartialSyntax) :
    InCompany G (obtainPartial c missing faulty name) fun i =>
      (Manner.ofSearch (G.search i)).obtainPartial missing faulty name := by
  intro x r going
  obtain ⟨found, y, q, left, options, right, onward⟩ := lawful.find name x going
  have right (i : ι) : (Manner.ofSearch (G.search i)).find name (x.keeping (r i)) =
      (found, y.keeping (q i)) := right i
  have own := obtainPartial_eq c missing faulty name x
  have others (i : ι) := (Manner.ofSearch (G.search i)).obtainPartial_eq missing faulty name
    (x.keeping (r i))
  simp only [left] at own
  simp only [right] at others
  rcases found with d | _ | body
  · exact ⟨_, y, q, own, others, .inr ⟨Failure.unexpected_of_fault rfl wrong, onward⟩⟩
  · have other (z : Context) : ((z.problem missing).withName name).isFaultReport = false :=
      decide_eq_false fun same => missed (Fault.run.inj same)
    have refused : Notes fun z => refuse ((z.problem missing).withName name) z :=
      notes_refuse (fun _ _ => rfl) other
    obtain ⟨result, z, p, handled, handled', further⟩ := refused.inCompany lawful y q onward
    let missed (o : Except Failure Unit × Context) : Except Failure (Option (List Tree)) × Context :=
      (o.1.map fun () => none, o.2)
    refine ⟨result.map fun () => none, z, p, own.trans (congrArg missed handled),
      fun i => (others i).trans (congrArg missed (handled' i)), ?_⟩
    cases result <;> exact further
  · exact ⟨_, y, q, own, others, onward⟩

theorem InCompany.asPartial (lawful : G.Lawful c) (h : InCompany G s t) (name : String) :
    InCompany G (asPartial name s) fun i => asPartial name (t i) := by
  intro x r going
  cases busy : x.active.contains name with
  | true =>
    have refused : Notes fun z => refuse ((z.problem .applyPartialRecursion).withName name) z :=
      notes_refuse (fun _ _ => rfl) fun _ => rfl
    obtain ⟨result, y, q, handled, handled', onward⟩ := refused.inCompany lawful x r going
    let skipped (o : Except Failure Unit × Context) : Except Failure (Option α) × Context :=
      (o.1.map fun () => none, o.2)
    refine ⟨result.map fun () => none, y, q,
      (asPartial_refused busy).trans (congrArg skipped handled), fun i => ?_, ?_⟩
    · have busy : (x.keeping (r i)).active.contains name = true := busy
      exact (asPartial_refused busy).trans (congrArg skipped (handled' i))
    · cases result <;> exact onward
  | false =>
    have entered := h.wrap (fun x => { x with active := name :: x.active })
      (fun _ y => y.exitPartial name) (fun _ => some) (fun _ => ⟨rfl, rfl⟩) (fun _ _ => rfl)
      (fun _ _ => ⟨rfl, rfl⟩) (fun _ _ _ _ => rfl) fun _ _ => rfl
    obtain ⟨result, y, q, left, right, onward⟩ := entered x r going
    refine ⟨result, y, q, (asPartial_entered busy).trans left, fun i => ?_, onward⟩
    have busy : (x.keeping (r i)).active.contains name = false := busy
    exact (asPartial_entered busy).trans (right i)

theorem InCompany.capture {s : Step Unit} {t : ι → Step Unit} (h : InCompany G s t)
    (frame : Frame) : InCompany G (capture frame s) fun i => capture frame (t i) :=
  h.wrap (fun x => { x.push frame with output := "" })
    (fun x y => { y with frames := y.frames.truncate x.depth, output := x.output })
    (fun y () => y.output) (fun _ => ⟨rfl, rfl⟩) (fun _ _ => rfl) (fun _ _ => ⟨rfl, rfl⟩)
    (fun _ _ _ _ => rfl) fun _ _ => rfl

theorem InCompany.silent {s : Step Unit} {t : ι → Step Unit} (h : InCompany G s t) :
    InCompany G (silent s) fun i => silent (t i) := by
  intro x r going
  obtain ⟨result, y, q, left, right, onward⟩ := h { x with output := "" } r going
  let hushed (o : Except Failure Unit × Context) := (o.1, { o.2 with output := x.output })
  exact ⟨result, _, q, congrArg hushed left, fun i => congrArg hushed (right i), onward⟩

end

section

open Manner

variable {nested : Manner → Nested} (lawful : G.Lawful .core)

theorem notes_test (call : Call) : Notes (Catalog.core.test call) := by
  unfold Catalog.test
  cases known : Catalog.core.predicate? call.name with
  | none => exact notes_value false
  | some p =>
    obtain ⟨predicate, rfl⟩ := exists_of_get? known
    exact notes_look fun _ _ => rfl

variable (nesting : ∀ name body, InCompany G (nested (plain .core) name body)
  fun i => nested (ofSearch (G.search i)) name body)

include lawful nesting

theorem inCompany_formatter (call : Call) (vars : Variables) :
    InCompany G ((plain .core).applyFormatter .core (nested (plain .core)) call vars) fun i =>
      (ofSearch (G.search i)).applyFormatter .core (nested (ofSearch (G.search i))) call vars := by
  unfold Manner.applyFormatter
  cases known : Catalog.core.formatter? call.name with
  | none => exact inCompany_value vars
  | some f =>
    obtain ⟨formatter, rfl⟩ := exists_of_get? known
    rw [Option.map_some, CoreFormatter.toFormatter]
    rcases formatter.transform_cases with same | same
    all_goals
      rw [same]
      dsimp only
    · refine InCompany.bind ?_ fun node => inCompany_value _
      refine (inCompany_obtainPartial lawful call.args.first (by decide) (by decide)).bind
        fun found => ?_
      cases found with
      | none => exact inCompany_value _
      | some body =>
        refine InCompany.bind ?_ fun text => ?_
        · exact (((nesting call.args.first body).whole lawful).capture _).asPartial lawful _
        · cases text <;> exact inCompany_value _
    · have computed : Notes fun ctx =>
          ((formatter.compute ctx.resolve call.args vars.first).map fun node => vars.setFirst node,
            ctx) := notes_look fun _ _ => rfl
      rw [funext (compute_eq _ vars)]
      exact computed.inCompany lawful

theorem inCompany_include (name : String) (output : Bool) :
    InCompany G ((plain .core).runInclude (nested (plain .core)) name output) fun i =>
      (ofSearch (G.search i)).runInclude (nested (ofSearch (G.search i))) name output := by
  have includes : Notes (read fun ctx => ctx.options.includes) := notes_read fun _ _ => rfl
  refine (includes.inCompany lawful).bind fun included => ?_
  cases included with
  | false => exact inCompany_value ()
  | true =>
    refine (inCompany_obtainPartial lawful name (by decide) (by decide)).bind fun found => ?_
    cases found with
    | none => exact inCompany_value ()
    | some body =>
      have inside := ((nesting name body).asPartial lawful name).bind fun _ =>
        inCompany_value (G := G) ()
      cases output with
      | true => exact inside
      | false => exact inside.silent

theorem Mannered.inCompany {place : Text.Position} {source : List Char} {t : Manner → Step α}
    (h : Mannered .core nested place source t) :
    InCompany G (t (plain .core)) fun i => t (ofSearch (G.search i)) := by
  induction h with
  | value a => exact inCompany_value a
  | bind _ _ first next => exact first.bind next
  | atom atom => exact atom.notes.inCompany lawful
  | within node _ inside => exact inside.within node
  | rounds node i items _ inside => exact (InCompany.rounds inside i items).within node
  | instruction inner text _ inside => exact inside.instruction lawful
  | test call => exact (notes_test call).inCompany lawful
  | format call vars => exact inCompany_formatter lawful nesting call vars
  | includePartial name output => exact inCompany_include lawful nesting name output

end

section

open Manner

variable (lawful : G.Lawful .core)

include lawful

theorem inCompany_nested (depth : Nat) (name : String) (body : List Tree) :
    InCompany G ((plain .core).runNested .core depth name body) fun i =>
      (ofSearch (G.search i)).runNested .core depth name body := by
  induction depth generalizing name body with
  | zero =>
    have refused : Notes fun z => refuse ((z.problem .applyPartialRecursion).withName name) z :=
      notes_refuse (fun _ _ => rfl) fun _ => rfl
    exact refused.inCompany lawful
  | succ depth ih =>
    exact (mannered_trees .core (fun m => m.runNested .core depth) .nowhere [] body).inCompany
      lawful ih

theorem inCompany_body (depth : Nat) (body : List Tree) :
    InCompany G ((plain .core).whole ((plain .core).runTrees .core
        ((plain .core).runNested .core depth) body)) fun i =>
      (ofSearch (G.search i)).whole ((ofSearch (G.search i)).runTrees .core
        ((ofSearch (G.search i)).runNested .core depth) body) := by
  have trees := (mannered_trees .core (fun m => m.runNested .core depth) .nowhere [] body).inCompany
    lawful (inCompany_nested lawful depth)
  exact trees.whole lawful

end

end Step

end JsonTemplate

import JsonTemplate.Proofs.Execution.Completion

namespace JsonTemplate

/-- What a run keeps beside its frames and its output. -/
structure Records where
  problems : List Diagnostic
  logged : List Diagnostic
  limiter : Option Limiter
  compiled : Bindings (List Tree)
  compileCount : Nat

namespace Records

def note (d : Diagnostic) (r : Records) : Records := { r with problems := r.problems ++ [d] }

def log (d : Diagnostic) (r : Records) : Records := { r with logged := r.logged ++ [d] }

end Records

/-- How the records of two runs go together. -/
structure Pairing where
  /-- The records while both runs go on. -/
  Matches : RunOptions → Records → Records → Prop
  /-- The limiters when the second run alone has ended, with a failure of its own. -/
  Parted : Option Limiter → Failure → Option Limiter → Prop

namespace Context

def records (ctx : Context) : Records :=
  ⟨ctx.problems, ctx.logged, ctx.limiter, ctx.compiled, ctx.compileCount⟩

/-- States of two runs that go together. -/
structure Paired (K : Pairing) (x y : Context) : Prop where
  frames : x.frames.Resembles y.frames
  options : x.options = y.options
  place : x.place = y.place
  active : x.active = y.active
  records : K.Matches x.options x.records y.records

section

variable {K : Pairing} {x y x' y' : Context}

theorem Paired.push (h : x.Paired K y) (f : Frame) : (x.push f).Paired K (y.push f) :=
  ⟨h.frames.push f, h.options, h.place, h.active, h.records⟩

theorem Paired.updateTop (h : x.Paired K y) {change : Frame → Frame}
    (same : ∀ f, (change f).isolated = f.isolated) :
    (x.updateTop change).Paired K (y.updateTop change) :=
  ⟨h.frames.updateTop same, h.options, h.place, h.active, h.records⟩

theorem Paired.restore (h : x'.Paired K y') (before : x.Paired K y) :
    Paired K { x' with frames := x.frames } { y' with frames := y.frames } :=
  ⟨before.frames, h.options, h.place, h.active, h.records⟩

theorem Paired.relocate (h : x'.Paired K y') (before : x.Paired K y) :
    Paired K { x' with place := x.place } { y' with place := y.place } :=
  ⟨h.frames, h.options, before.place, h.active, h.records⟩

theorem Paired.problem (h : x.Paired K y) (fault : RunFault) : x.problem fault = y.problem fault :=
  congrArg (Diagnostic.run fault) h.place

end

theorem Finds.rest {c : Catalog} {name : String} {ctx : Context}
    {found : Except Diagnostic (Option (List Tree)) × Context} (h : ctx.Finds c name found) :
    found.2.frames = ctx.frames ∧ found.2.options = ctx.options ∧ found.2.place = ctx.place ∧
      found.2.active = ctx.active ∧ found.2.output = ctx.output ∧
      found.2.limiter = ctx.limiter := by
  cases h with
  | compiled =>
    unfold keep noteFaulty
    split <;> exact ⟨rfl, rfl, rfl, rfl, rfl, rfl⟩
  | _ => exact ⟨rfl, rfl, rfl, rfl, rfl, rfl⟩

end Context

namespace Step

variable {α β : Type}

theorem rest_eq {depth : Nat} {after : Context} (few : after.depth ≤ depth)
    (result : Except Failure α) : rest depth (result, after) = after := by
  cases result with
  | ok a => rfl
  | error f =>
    change { after with frames := after.frames.truncate depth } = after
    rw [FrameStack.truncate_of_depth_le few]

/-- The outcomes of two runs from states that go together: the same, with the same text printed, or
the second run has ended alone. -/
inductive Together (K : Pairing) (x y : Context) :
    Except Failure α × Context → Except Failure α × Context → Prop where
  | same {result : Except Failure α} {x' y' : Context} (text : String) :
      (rest x.depth (result, x')).Paired K (rest y.depth (result, y')) →
        x'.output = x.output ++ text → y'.output = y.output ++ text →
          Together K x y (result, x') (result, y')
  | parted {found : Except Failure α × Context} {f : Failure} {y' : Context} :
      f.unexpected? = none → K.Parted found.2.limiter f y'.limiter →
        Together K x y found (.error f, y')

end Step

/-- What keeps up the relation between the records of two runs. -/
structure Pairing.Lawful (K : Pairing) (c : Catalog) : Prop where
  note : ∀ {o a b} (d : Diagnostic), K.Matches o a b → K.Matches o (a.note d) (b.note d)
  log : ∀ {o a b} (d : Diagnostic), K.Matches o a b → K.Matches o (a.log d) (b.log d)
  count : ∀ {x y : Context}, x.Paired K y → Step.Together K x y (Step.count x) (Step.count y)
  find : ∀ {x y : Context} (name : String), x.Paired K y →
    (x.findPartial c name).1 = (y.findPartial c name).1 ∧
      (x.findPartial c name).2.Paired K (y.findPartial c name).2
  tick : ∀ {l : Limiter} {f r}, K.Parted (some l) f r → K.Parted (some l.check.1) f r

namespace Context

variable {K : Pairing} {c : Catalog} {x y : Context}

theorem Paired.note (h : x.Paired K y) (lawful : K.Lawful c) (d : Diagnostic) :
    (x.note d).Paired K (y.note d) :=
  ⟨h.frames, h.options, h.place, h.active, lawful.note d h.records⟩

theorem Paired.noteProblem (h : x.Paired K y) (lawful : K.Lawful c) (fault : RunFault)
    (told : Diagnostic → Diagnostic) :
    (x.note (told (x.problem fault))).Paired K (y.note (told (y.problem fault))) := by
  rw [h.problem fault]
  exact h.note lawful _

theorem Paired.log (h : x.Paired K y) (lawful : K.Lawful c) (d : Diagnostic) :
    Paired K { x with logged := x.logged ++ [d] } { y with logged := y.logged ++ [d] } :=
  ⟨h.frames, h.options, h.place, h.active, lawful.log d h.records⟩

theorem Advances.parted {before after : Context} (h : before.Advances after) (lawful : K.Lawful c)
    {f : Failure} {l : Option Limiter} (parted : K.Parted before.limiter f l) :
    K.Parted after.limiter f l := by
  induction h with
  | refl => exact parted
  | note | write | setVar | log => assumption
  | count _ limited ih =>
    rw [limited] at ih
    exact lawful.tick ih

end Context

namespace Step

variable {α β : Type} {K : Pairing} {c : Catalog}

/-- Two steps that keep two runs together. -/
structure InStep (K : Pairing) (s t : Step α) : Prop where
  together : ∀ {x y : Context}, x.Paired K y → Together K x y (s x) (t y)
  left : Keeps Context.KeepsBelow s
  right : Keeps Context.KeepsBelow t
  onward : ∀ (x : Context) {f l}, K.Parted x.limiter f l → K.Parted (s x).2.limiter f l

section

variable {x y x' y' : Context} {l r : Except Failure α × Context}

theorem Together.after (h : Together K x' y' l r) (depth : x'.depth = x.depth)
    (depth' : y'.depth = y.depth) {text : String} (printed : x'.output = x.output ++ text)
    (printed' : y'.output = y.output ++ text) : Together K x y l r := by
  cases h with
  | same more now further further' =>
    rw [depth, depth'] at now
    refine .same (text ++ more) now ?_ ?_
    · rw [further, printed, String.append_assoc]
    · rw [further', printed', String.append_assoc]
  | parted other apart => exact .parted other apart

theorem Together.later (h : Together K x' y' l r) (depth : x'.depth = x.depth)
    (depth' : y'.depth = y.depth) (printed : x'.output = x.output)
    (printed' : y'.output = y.output) : Together K x y l r := by
  have nothing : x'.output = x.output ++ "" := by rw [printed, String.append_empty]
  have nothing' : y'.output = y.output ++ "" := by rw [printed', String.append_empty]
  exact h.after depth depth' nothing nothing'

theorem Together.map (h : Together K x y l r) (g : α → β) :
    Together K x y (l.1.map g, l.2) (r.1.map g, r.2) := by
  cases h with
  | @same result x' y' text now printed printed' =>
    refine .same text ?_ printed printed'
    cases result <;> exact now
  | parted other apart => exact .parted other apart

theorem Together.of_paired (result : Except Failure α) (now : x'.Paired K y')
    (few : x'.depth ≤ x.depth) (few' : y'.depth ≤ y.depth) (printed : x'.output = x.output)
    (printed' : y'.output = y.output) : Together K x y (result, x') (result, y') := by
  refine .same "" ?_ ?_ ?_
  · rw [rest_eq few, rest_eq few']
    exact now
  · rw [printed, String.append_empty]
  · rw [printed', String.append_empty]

theorem Together.steady (result : Except Failure α) (paired : x.Paired K y) :
    Together K x y (result, x) (result, y) :=
  .of_paired result paired (Nat.le_refl _) (Nat.le_refl _) rfl rfl

theorem Together.relocate (h : Together K x y l r) {x₀ y₀ : Context} (before : x₀.Paired K y₀) :
    Together K x y (l.1, { l.2 with place := x₀.place }) (r.1, { r.2 with place := y₀.place }) := by
  cases h with
  | @same result x' y' text now printed printed' =>
    refine .same text ?_ printed printed'
    have moved := now.relocate before
    cases result <;> exact moved
  | parted other apart => exact .parted other apart

theorem Together.exit (h : Together K x y l r) (name : String) :
    Together K x y (l.1, l.2.exitPartial name) (r.1, r.2.exitPartial name) := by
  cases h with
  | @same result x' y' text now printed printed' =>
    refine .same text ?_ printed printed'
    have left : (rest x.depth (result, x')).active = x'.active := by cases result <;> rfl
    have right : (rest y.depth (result, y')).active = y'.active := by cases result <;> rfl
    have active : x'.active.filter (· ≠ name) = y'.active.filter (· ≠ name) := by
      rw [← left, ← right, now.active]
    cases result <;> exact ⟨now.frames, now.options, now.place, active, now.records⟩
  | parted other apart => exact .parted other apart

theorem together_refuse (lawful : K.Lawful c) (paired : x.Paired K y) (d : Diagnostic) :
    Together K x y (refuse d x) (refuse d y) := by
  unfold refuse
  rw [← paired.options]
  split
  · exact .of_paired _ (paired.note lawful d) (Nat.le_refl _) (Nat.le_refl _) rfl rfl
  · exact .steady _ paired

end

section

variable {s t : Step α} {k m : α → Step β}

theorem inStep_of_advances (lawful : K.Lawful c) (hs : ∀ ctx : Context, ctx.Advances (s ctx).2)
    (ht : ∀ ctx : Context, ctx.Advances (t ctx).2)
    (h : ∀ {x y : Context}, x.Paired K y → Together K x y (s x) (t y)) : InStep K s t :=
  ⟨h, (calm_of_advances hs).keeps.below, (calm_of_advances ht).keeps.below,
    fun x _ _ => (hs x).parted lawful⟩

theorem inStep_value (a : α) : InStep K (pure a : Step α) (pure a) :=
  ⟨fun paired => .steady (.ok a) paired, (calm_value a).keeps.below,
    (calm_value a).keeps.below, fun _ _ _ apart => apart⟩

theorem inStep_read {f : Context → α} (same : ∀ {x y : Context}, x.Paired K y → f x = f y) :
    InStep K (read f) (read f) := by
  refine ⟨fun {x y} paired => ?_, (calm_read f).keeps.below, (calm_read f).keeps.below,
    fun _ _ _ apart => apart⟩
  rw [read, read, same paired]
  exact .steady (.ok (f y)) paired

theorem InStep.bind (first : InStep K s t) (next : ∀ a, InStep K (k a) (m a)) :
    InStep K (s >>= k) (t >>= m) := by
  refine ⟨fun {x y} paired => ?_,
    .bind Context.KeepsBelow.trans Context.KeepsBelow.depth first.left fun a => (next a).left,
    .bind Context.KeepsBelow.trans Context.KeepsBelow.depth first.right fun a => (next a).right,
    fun x _ _ apart => ?_⟩
  · have both := first.together paired
    have steady := (first.left x).depth
    have steady' := (first.right y).depth
    generalize left : s x = l at both steady
    generalize right : t y = r at both steady'
    cases both with
    | @same result x' y' text now printed printed' =>
      cases result with
      | error f =>
        rw [bind_error left, bind_error right]
        exact .same text now printed printed'
      | ok a =>
        rw [bind_ok left, bind_ok right]
        exact ((next a).together now).after steady steady' printed printed'
    | parted other apart =>
      -- The first run may go on, but it does not catch up with the end of the second.
      rw [bind_error right]
      refine .parted other ?_
      rcases l with ⟨f | a, middle⟩
      · rw [bind_error left]
        exact apart
      · rw [bind_ok left]
        exact (next a).onward middle apart
  · have begun := first.onward x apart
    rcases outcome : s x with ⟨f | a, middle⟩
    all_goals rw [outcome] at begun
    · rw [bind_error outcome]
      exact begun
    · rw [bind_ok outcome]
      exact (next a).onward middle begun

theorem InStep.within (h : InStep K s t) (node : Node) :
    InStep K (within node s) (within node t) := by
  refine ⟨fun {x y} paired => ?_, (h.left.within node).below, (h.right.within node).below,
    fun x _ _ apart => ?_⟩
  · have both : Together K (x.enter node) (y.enter node) (s (x.enter node)) (t (y.enter node)) :=
      h.together (paired.push _)
    have below := h.left (x.enter node)
    have below' := h.right (y.enter node)
    generalize left : s (x.enter node) = l at both below
    generalize right : t (y.enter node) = r at both below'
    cases both with
    | @same result x' y' text now printed printed' =>
      cases result with
      | error f =>
        rw [within_error left, within_error right]
        refine .same text ?_ printed printed'
        have cut : x'.cut x.depth = { x' with frames := x.frames } :=
          Context.KeepsBelow.cut_off below
        have cut' : y'.cut y.depth = { y' with frames := y.frames } :=
          Context.KeepsBelow.cut_off below'
        rw [rest, rest, cut, cut']
        exact now.restore paired
      | ok a =>
        rw [within_ok left, within_ok right]
        refine .same text ?_ printed printed'
        have popped : x'.pop = { x' with frames := x.frames } := Context.KeepsBelow.pop_eq below
        have popped' : y'.pop = { y' with frames := y.frames } := Context.KeepsBelow.pop_eq below'
        rw [rest, rest, popped, popped']
        exact now.restore paired
    | parted other apart =>
      rw [within_error right]
      refine .parted other ?_
      rcases l with ⟨f | a, middle⟩
      · rw [within_error left]
        exact apart
      · rw [within_ok left]
        exact apart
  · have inside := h.onward (x.enter node) apart
    rcases outcome : s (x.enter node) with ⟨f | a, middle⟩
    all_goals rw [outcome] at inside
    · rw [within_error outcome]
      exact inside
    · rw [within_ok outcome]
      exact inside

theorem inStep_change {change : Frame → Frame} (same : ∀ f, (change f).isolated = f.isolated) :
    InStep K (modify (Context.updateTop change)) (modify (Context.updateTop change)) :=
  ⟨fun {x y} paired => .of_paired (.ok ()) (paired.updateTop same)
      (Nat.le_of_eq (x.frames.depth_updateTop change))
      (Nat.le_of_eq (y.frames.depth_updateTop change)) rfl rfl,
    fun x => .updateTop change x, fun x => .updateTop change x, fun _ _ _ apart => apart⟩

theorem InStep.rounds {round round' : Bool → Step Unit}
    (h : ∀ last, InStep K (round last) (round' last)) (i : Nat) (items : List Json.Value) :
    InStep K (roundsOf round i items) (roundsOf round' i items) :=
  roundsOf_related round round' (inStep_value ()) (fun _ => inStep_change fun _ => rfl)
    (fun last => (h last).within) (fun first next => first.bind fun _ => next) i items

theorem inStep_write (text : String) :
    InStep K (modify (Context.write text)) (modify (Context.write text)) := by
  have kept : Keeps Context.KeepsBelow (modify (Context.write text)) :=
    (calm_of_advances fun _ => .write text .refl).keeps.below
  refine ⟨fun {x y} paired => ?_, kept, kept, fun _ _ _ apart => apart⟩
  exact .same text ⟨paired.frames, paired.options, paired.place, paired.active, paired.records⟩
    rfl rfl

theorem inStep_assign (vars : Bindings Node) :
    InStep K (modify (assignAll vars)) (modify (assignAll vars)) := by
  induction vars with
  | nil => exact inStep_value ()
  | cons var rest ih =>
    have one : InStep K (modify (Context.setVar var.1 var.2))
        (modify (Context.setVar var.1 var.2)) := inStep_change fun _ => rfl
    exact ih.bind fun _ => one

end

section

variable (lawful : K.Lawful c)

include lawful

theorem inStep_count : InStep K count count :=
  inStep_of_advances lawful count_advances count_advances lawful.count

theorem inStep_noteProblems (program : Program) :
    InStep K (noteProblems program) (noteProblems program) := by
  unfold noteProblems
  induction program.problems with
  | nil => exact inStep_value ()
  | cons message more ih =>
    let told (d : Diagnostic) : Diagnostic := (d.withName program.source).withData message
    have one : InStep K (modify fun ctx => ctx.note (told (ctx.problem .expressionParse)))
        (modify fun ctx => ctx.note (told (ctx.problem .expressionParse))) :=
      inStep_of_advances lawful (fun _ => .note _ .refl) (fun _ => .note _ .refl) fun paired =>
        .of_paired (.ok ()) (paired.noteProblem lawful _ told) (Nat.le_refl _) (Nat.le_refl _)
          rfl rfl
    exact one.bind fun _ => ih

theorem inStep_evaluate (program : Program) :
    InStep K (evaluate program) (evaluate program) := by
  refine inStep_of_advances lawful (evaluate_advances program) (evaluate_advances program) ?_
  intro x y paired
  let scope := evaluationScope program.source
  have related : scope.Related scope fun e f =>
      e.context.Paired K f.context ∧ e.failures = f.failures ∧
        e.context.output = x.output ∧ f.context.output = y.output :=
    { lookup := fun name ⟨now, _, _⟩ => by
        change ExprValue.ofNode _ = ExprValue.ofNode _
        rw [Context.resolve_eq now.frames]
      assign := fun name v ⟨now, count, printed⟩ => ⟨now.updateTop fun _ => rfl, count, printed⟩
      report := fun message ⟨now, count, printed⟩ =>
        ⟨now.noteProblem lawful .expressionReduce fun d =>
          (d.withName program.source).withData message, congrArg (· + 1) count, printed⟩ }
  obtain ⟨value, now, count, printed, printed'⟩ := program.reduce_related related
    (s := ⟨x, 0⟩) (t := ⟨y, 0⟩) ⟨paired, rfl, rfl, rfl⟩
  have steady := (evaluate_advances program x).settles.depth
  have steady' := (evaluate_advances program y).settles.depth
  unfold evaluate at steady steady' ⊢
  dsimp only at steady steady' ⊢
  rw [count, value]
  exact .of_paired (.ok _) now steady steady' printed printed'

theorem together_report {x y : Context} (paired : x.Paired K y) (d : Diagnostic) :
    Together K x y (report d x) (report d y) :=
  (together_refuse lawful (paired.log lawful d) d).later rfl rfl rfl rfl

theorem together_recover (place : Text.Position) (source : List Char) {x y x' y' : Context}
    (f : Failure) (paired : (x'.cut x.depth).Paired K (y'.cut y.depth)) :
    Together K (x'.cut x.depth) (y'.cut y.depth) (recover place source x.depth f x')
      (recover place source y.depth f y') := by
  rw [recover_eq, recover_eq]
  cases f.unexpected? with
  | some told => exact together_report lawful paired _
  | none => exact .steady (.error f) paired

theorem instruction_onward {place : Text.Position} {source : List Char} {s : Step Unit}
    {x : Context} {f : Failure} {l : Option Limiter}
    (apart : K.Parted ((do count; s : Step Unit) { x with place }).2.limiter f l) :
    K.Parted (instruction place source s x).2.limiter f l := by
  rcases outcome : (do count; s : Step Unit) { x with place } with ⟨g | u, after⟩
  all_goals rw [outcome] at apart
  · rw [instruction_error outcome]
    exact (recover_advances place source x.depth g after).parted lawful apart
  · rw [instruction_ok outcome]
    exact apart

theorem InStep.instruction {s t : Step Unit} (h : InStep K s t)
    (kept : Keeps Context.Undisturbed s) (kept' : Keeps Context.Undisturbed t)
    (place : Text.Position) (source : List Char) :
    InStep K (instruction place source s) (instruction place source t) := by
  have counted : InStep K (do count; s) (do count; t) := (inStep_count lawful).bind fun _ => h
  refine ⟨fun {x y} paired => ?_, (kept.instruction place source).keeps.below,
    (kept'.instruction place source).keeps.below, fun x _ _ apart =>
      instruction_onward lawful (counted.onward { x with place } apart)⟩
  have both : Together K { x with place } { y with place }
      ((do count; s : Step Unit) { x with place }) ((do count; t : Step Unit) { y with place }) :=
    counted.together ⟨paired.frames, paired.options, rfl, paired.active, paired.records⟩
  have steady := (counted.left { x with place }).depth
  have steady' := (counted.right { y with place }).depth
  generalize left : (do count; s : Step Unit) { x with place } = l at both steady
  generalize right : (do count; t : Step Unit) { y with place } = r at both steady'
  cases both with
  | @same result x' y' text now printed printed' =>
    cases result with
    | error f =>
      rw [instruction_error left, instruction_error right]
      have handled := together_recover lawful place source (x := x) (y := y) f now
      exact (handled.relocate paired).after steady steady' printed printed'
    | ok u =>
      rw [instruction_ok left, instruction_ok right]
      exact .same text (now.relocate paired) printed printed'
  | @parted _ f y' other apart =>
    have ended : recover place source y.depth f y' = (.error f, y'.cut y.depth) := by
      rw [recover_eq, other]
      rfl
    rw [instruction_error right, ended]
    refine .parted other (instruction_onward lawful ?_)
    rw [left]
    exact apart

theorem InStep.whole {s t : Step Unit} (h : InStep K s t) (kept : Keeps Context.Undisturbed s)
    (kept' : Keeps Context.Undisturbed t) : InStep K (whole s) (whole t) where
  together {x y} paired := by
    rw [Step.whole, Step.whole, paired.place]
    exact (h.instruction lawful kept kept' y.place []).together paired
  left := kept.whole.keeps.below
  right := kept'.whole.keeps.below
  onward x _ _ apart := (h.instruction lawful kept kept' x.place []).onward x apart

theorem inStep_obtainPartial (missing faulty : RunFault) (name : String) :
    InStep K (obtainPartial c missing faulty name) (obtainPartial c missing faulty name) := by
  have kept := (calm_obtainPartial c missing faulty name).keeps.below
  refine ⟨fun {x y} paired => ?_, kept, kept, fun x f l apart => ?_⟩
  · have found := lawful.find name paired
    obtain ⟨frames, -, -, -, printed, -⟩ := (x.findPartial_finds c name).rest
    obtain ⟨frames', -, -, -, printed', -⟩ := (y.findPartial_finds c name).rest
    rw [obtainPartial_eq, obtainPartial_eq]
    generalize x.findPartial c name = search at found frames printed
    generalize y.findPartial c name = search' at found frames' printed'
    obtain ⟨result, x'⟩ := search
    obtain ⟨result', y'⟩ := search'
    obtain ⟨rfl, now⟩ := found
    have steady : x'.depth = x.depth := congrArg FrameStack.depth frames
    have steady' : y'.depth = y.depth := congrArg FrameStack.depth frames'
    rcases result with d | _ | body
    · dsimp only
      rw [now.problem faulty]
      exact .of_paired _ now (Nat.le_of_eq steady) (Nat.le_of_eq steady') printed printed'
    · dsimp only
      rw [now.problem missing]
      exact ((together_refuse lawful now _).later steady steady' printed printed').map _
    · exact .of_paired _ now (Nat.le_of_eq steady) (Nat.le_of_eq steady') printed printed'
  · have moved := obtainPartial_advances c missing faulty name x
    obtain ⟨-, -, -, -, -, limiter⟩ := (x.findPartial_finds c name).rest
    rw [← limiter] at apart
    exact moved.parted lawful apart

theorem InStep.asPartial {s t : Step α} (h : InStep K s t) (calm : Calm s) (calm' : Calm t)
    (name : String) : InStep K (asPartial name s) (asPartial name t) := by
  refine ⟨fun {x y} paired => ?_, (calm.asPartial name).keeps.below,
    (calm'.asPartial name).keeps.below, fun x f l apart => ?_⟩
  · cases busy : x.active.contains name with
    | true =>
      have busy' : y.active.contains name = true := by rw [← paired.active, busy]
      rw [asPartial_refused busy, asPartial_refused busy', paired.problem]
      exact (together_refuse lawful paired _).map _
    | false =>
      have busy' : y.active.contains name = false := by rw [← paired.active, busy]
      have both : Together K { x with active := name :: x.active }
          { y with active := name :: y.active } (s { x with active := name :: x.active })
          (t { y with active := name :: y.active }) :=
        h.together ⟨paired.frames, paired.options, paired.place,
          congrArg (name :: ·) paired.active, paired.records⟩
      have inside := both.later (x := x) (y := y) rfl rfl rfl rfl
      rw [asPartial_entered busy, asPartial_entered busy']
      exact (inside.map some).exit name
  · cases busy : x.active.contains name with
    | true =>
      rw [asPartial_refused busy]
      exact (refuse_advances _ x).parted lawful apart
    | false =>
      rw [asPartial_entered busy]
      exact h.onward { x with active := name :: x.active } apart

end

section

theorem InStep.captured {s t : Step Unit} (h : InStep K s t) (calm : Calm s) (calm' : Calm t)
    {frame : Frame} {x y : Context} (paired : (x.push frame).Paired K (y.push frame)) :
    (∃ (result : Except Failure String) (x' y' : Context), x'.Paired K y' ∧
        capture frame s x = (result, { x' with frames := x.frames, output := x.output }) ∧
        capture frame t y = (result, { y' with frames := y.frames, output := y.output })) ∨
      ∃ f y', f.unexpected? = none ∧ capture frame t y = (.error f, y') ∧
        K.Parted (capture frame s x).2.limiter f y'.limiter := by
  have both : Together K { x.push frame with output := "" } { y.push frame with output := "" }
      (s { x.push frame with output := "" }) (t { y.push frame with output := "" }) :=
    h.together ⟨paired.frames, paired.options, paired.place, paired.active, paired.records⟩
  have restored {u : Step Unit} (quiet : Calm u) (z : Context) :
      (u { z.push frame with output := "" }).2.frames.truncate z.depth = z.frames := by
    have kept := quiet { z.push frame with output := "" }
    exact (FrameStack.truncate_eq_pop kept.depth).trans (FrameStack.pop_eq kept.depth kept.below)
  have left := restored calm x
  have right := restored calm' y
  unfold Step.capture
  generalize s { x.push frame with output := "" } = l at both left
  generalize t { y.push frame with output := "" } = r at both right
  cases both with
  | @same result x' y' text now printed printed' =>
    have text_eq : x'.output = y'.output := printed.trans printed'.symm
    dsimp only at left right ⊢
    rw [left, right, text_eq]
    cases result with
    | error f => exact .inl ⟨.error f, _, _, now, rfl, rfl⟩
    | ok u => exact .inl ⟨.ok y'.output, x', y', now, rfl, rfl⟩
  | @parted _ f y' other apart => exact .inr ⟨f, _, other, rfl, apart⟩

theorem InStep.capture {s t : Step Unit} (h : InStep K s t) (calm : Calm s) (calm' : Calm t)
    (frame : Frame) : InStep K (capture frame s) (capture frame t) := by
  refine ⟨fun {x y} paired => ?_, (calm.capture frame).keeps.below,
    (calm'.capture frame).keeps.below, fun x f l apart =>
      h.onward { x.push frame with output := "" } apart⟩
  rcases h.captured calm calm' (paired.push frame) with
    ⟨result, x', y', now, left, right⟩ | ⟨f, y', other, right, apart⟩
  · rw [left, right]
    exact .of_paired result ⟨paired.frames, now.options, now.place, now.active, now.records⟩
      (Nat.le_refl _) (Nat.le_refl _) rfl rfl
  · rw [right]
    exact .parted other apart

theorem InStep.silent {s t : Step Unit} (h : InStep K s t) (calm : Calm s) (calm' : Calm t) :
    InStep K (silent s) (silent t) := by
  refine ⟨fun {x y} paired => ?_, calm.silent.keeps.below, calm'.silent.keeps.below,
    fun x f l apart => h.onward { x with output := "" } apart⟩
  have both : Together K { x with output := "" } { y with output := "" }
      (s { x with output := "" }) (t { y with output := "" }) :=
    h.together ⟨paired.frames, paired.options, paired.place, paired.active, paired.records⟩
  unfold Step.silent
  generalize s { x with output := "" } = l at both
  generalize t { y with output := "" } = r at both
  cases both with
  | @same result x' y' text now _ _ =>
    refine .same "" ?_ String.append_empty.symm String.append_empty.symm
    cases result <;> exact ⟨now.frames, now.options, now.place, now.active, now.records⟩
  | parted other apart => exact .parted other apart

end

section

variable {nested : Nested} (lawful : K.Lawful .core)

include lawful

theorem inStep_test (call : Call) : InStep K (Catalog.core.test call) (Catalog.core.test call) := by
  refine inStep_of_advances lawful (test_advances _ call) (test_advances _ call) fun {x y} paired => ?_
  unfold Catalog.test
  cases known : Catalog.core.predicate? call.name with
  | none => exact .steady (.ok false) paired
  | some p =>
    obtain ⟨predicate, rfl⟩ := exists_of_get? known
    dsimp only [CorePredicate.toPredicate]
    rw [Context.resolve_eq paired.frames]
    exact .steady _ paired

variable (nesting : ∀ name body, InStep K (nested name body) (nested name body))
  (calm : ∀ name body, Calm (nested name body))

include nesting calm

theorem inStep_formatter (call : Call) (vars : Variables) :
    InStep K (applyFormatter .core nested call vars) (applyFormatter .core nested call vars) := by
  unfold applyFormatter
  cases known : Catalog.core.formatter? call.name with
  | none => exact inStep_value vars
  | some f =>
    obtain ⟨formatter, rfl⟩ := exists_of_get? known
    rw [Option.map_some, CoreFormatter.toFormatter]
    rcases formatter.transform_cases with same | same
    all_goals
      rw [same]
      dsimp only
    · refine .bind ?_ fun node => inStep_value _
      refine .bind (inStep_obtainPartial lawful _ _ _) fun found => ?_
      cases found with
      | none => exact inStep_value _
      | some body =>
        have kept := (calm call.args.first body).keeps
        have printed := ((nesting call.args.first body).whole lawful kept kept).capture kept.whole
          kept.whole (partialFrame (call.args.values.drop 1) vars.first)
        have quiet := kept.whole.capture (partialFrame (call.args.values.drop 1) vars.first)
        refine (printed.asPartial lawful quiet quiet _).bind fun text => ?_
        cases text <;> exact inStep_value _
    · have kept :=
        (calm_compute (fun ctx => formatter.compute ctx.resolve call.args vars.first) vars).keeps
      refine ⟨fun {x y} paired => ?_, kept.below, kept.below, fun x f l apart => ?_⟩
      · rw [compute_eq, compute_eq, Context.resolve_eq paired.frames]
        exact .steady _ paired
      · rw [compute_eq]
        exact apart

theorem inStep_include (name : String) (output : Bool) :
    InStep K (runInclude .core nested name output) (runInclude .core nested name output) := by
  refine .bind (inStep_read fun paired => by rw [paired.options]) fun includes => ?_
  split
  · refine .bind (inStep_obtainPartial lawful _ _ _) fun found => ?_
    cases found with
    | none => exact inStep_value ()
    | some body =>
      have quiet : Calm (do let _ ← asPartial name (nested name body)) :=
        ((calm name body).asPartial name).bind fun _ => calm_value ()
      have inside : InStep K (do let _ ← asPartial name (nested name body))
          (do let _ ← asPartial name (nested name body)) :=
        ((nesting name body).asPartial lawful (calm name body) (calm name body) name).bind
          fun _ => inStep_value ()
      cases output with
      | true => exact inside
      | false => exact inside.silent quiet quiet
  · exact inStep_value ()

theorem Mirror.inStep {names : String → Prop} {s t : Step α}
    (h : Mirror .core nested nested names s t) : InStep K s t := by
  induction h with
  | value a => exact inStep_value a
  | bind _ _ first next => exact first.bind next
  | look f blind =>
    exact inStep_read fun paired => blind.of_resembles paired.frames paired.options
  | count => exact inStep_count lawful
  | test call => exact inStep_test lawful call
  | write text => exact inStep_write text
  | assign vars => exact inStep_assign vars
  | define name body _ => exact inStep_change fun _ => rfl
  | noteProblems program => exact inStep_noteProblems lawful program
  | evaluate program => exact inStep_evaluate lawful program
  | within node _ inside => exact inside.within node
  | rounds node i items _ same => exact (InStep.rounds same i items).within node
  | instruction place source mirror inside =>
    exact inside.instruction lawful (mirror.keeps Catalog.core_tidy calm)
      (mirror.symm.keeps Catalog.core_tidy calm) place source
  | format call vars => exact inStep_formatter lawful nesting calm call vars
  | includePartial name output => exact inStep_include lawful nesting calm name output

omit nesting calm in
theorem inStep_nested (depth : Nat) (name : String) (body : List Tree) :
    InStep K (runNested .core depth name body) (runNested .core depth name body) := by
  induction depth generalizing name body with
  | zero =>
    refine inStep_of_advances lawful (fun _ => refuse_advances _ _) (fun _ => refuse_advances _ _) ?_
    intro x y paired
    have same := congrArg (·.withName name) (paired.problem .applyPartialRecursion)
    change Together K x y (refuse ((x.problem _).withName name) x) (refuse _ y)
    rw [same]
    exact together_refuse lawful paired _
  | succ depth ih =>
    have mirror := mirror_trees .core (runNested .core depth) (runNested .core depth)
      (fun _ => True) body fun _ _ => trivial
    exact mirror.inStep lawful ih (calm_nested Catalog.core_tidy depth)

omit nesting calm in
theorem inStep_trees (depth : Nat) (body : List Tree) :
    InStep K (runTrees .core (runNested .core depth) body)
      (runTrees .core (runNested .core depth) body) :=
  (mirror_trees .core _ _ (fun _ => True) body fun _ _ => trivial).inStep lawful
    (inStep_nested lawful depth) (calm_nested Catalog.core_tidy depth)

end

end Step

def Pairing.ofLimiters (R : Option Limiter → Option Limiter → Prop)
    (Parted : Option Limiter → Failure → Option Limiter → Prop) : Pairing where
  Matches _ a b := b = { a with limiter := b.limiter } ∧ R a.limiter b.limiter
  Parted := Parted

theorem Context.findPartial_apart (c : Catalog) (name : String) (x : Context) {frames : FrameStack}
    (output : String) (limiter : Option Limiter)
    (same : frames.macro? name = x.frames.macro? name) :
    Context.findPartial c name { x with frames, output, limiter } =
      ((x.findPartial c name).1, { (x.findPartial c name).2 with frames, output, limiter }) := by
  unfold findPartial
  dsimp only
  rw [same]
  cases x.frames.macro? name with
  | some body => rfl
  | none =>
    cases x.compiled.get? name with
    | some body => rfl
    | none =>
      cases x.options.partials.get? name with
      | none => rfl
      | some source =>
        dsimp only
        cases compileSource c x.options source with
        | error d => rfl
        | ok compiled =>
          dsimp only [noteFaulty]
          split <;> rfl

namespace Pairing

variable {R : Option Limiter → Option Limiter → Prop}
  {Parted : Option Limiter → Failure → Option Limiter → Prop} {x y : Context}

theorem eq_of_ofLimiters (h : x.Paired (ofLimiters R Parted) y) :
    y = { x with frames := y.frames, output := y.output, limiter := y.limiter } := by
  obtain ⟨-, options, place, active, same, -⟩ := h
  cases y
  cases options
  cases place
  cases active
  cases same
  rfl

theorem paired_limiters (h : x.Paired (ofLimiters R Parted) y) {a b : Option Limiter}
    (related : R a b) :
    Context.Paired (ofLimiters R Parted) { x with limiter := a } { y with limiter := b } :=
  ⟨h.frames, h.options, h.place, h.active, by rw [eq_of_ofLimiters h]; rfl, related⟩

theorem count_together (h : x.Paired (ofLimiters R Parted) y) {l r : Limiter}
    (left : x.limiter = some l) (right : y.limiter = some r) (found : l.check.2 = r.check.2)
    (related : R (some l.check.1) (some r.check.1)) :
    Step.Together (ofLimiters R Parted) x y (Step.count x) (Step.count y) := by
  have same : Step.verdict x.place l.check.2 = Step.verdict y.place r.check.2 := by
    rw [h.place, found]
  rw [Step.count_some left, Step.count_some right, same]
  exact .of_paired _ (paired_limiters h related) (Nat.le_refl _) (Nat.le_refl _) rfl rfl

theorem lawful_ofLimiters {c : Catalog}
    (count : ∀ {x y : Context}, x.Paired (ofLimiters R Parted) y →
      Step.Together (ofLimiters R Parted) x y (Step.count x) (Step.count y))
    (tick : ∀ {l : Limiter} {f r}, Parted (some l) f r → Parted (some l.check.1) f r) :
    (ofLimiters R Parted).Lawful c where
  note d h := ⟨by rw [h.1]; rfl, h.2⟩
  log d h := ⟨by rw [h.1]; rfl, h.2⟩
  count := count
  tick := tick
  find {x y} name paired := by
    have same := Context.findPartial_apart c name x y.output y.limiter
      (paired.frames.macro? name).symm
    obtain ⟨frames, options, place, active, -, limiter⟩ := (x.findPartial_finds c name).rest
    rw [eq_of_ofLimiters paired, same]
    refine ⟨rfl, ?_, rfl, rfl, rfl, rfl, ?_⟩
    · rw [frames]
      exact paired.frames
    · change R (x.findPartial c name).2.limiter y.limiter
      rw [limiter]
      exact paired.records.2

end Pairing

end JsonTemplate

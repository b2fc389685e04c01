import JsonTemplate.Proofs.Execution.NestingLimit
import JsonTemplate.Proofs.Template.Unplaced
import Mathlib.Logic.Function.Basic

namespace JsonTemplate

def Diagnostic.unplaced (d : Diagnostic) : Diagnostic := { d with place := .nowhere }

namespace Failure

def unplaced : Failure → Failure
  | problem d => problem d.unplaced
  | plugin name message => plugin name message

theorem unplaced_unexpected? (f : Failure) : f.unplaced.unexpected? = f.unexpected? := by
  cases f <;> rfl

end Failure

def Frame.code (f : Frame) (name : String) : Option (List Tree) :=
  (f.macro? name).map Tree.unplacedAll

theorem Frame.code_setMacro (f : Frame) (name : String) (body : List Tree) :
    (f.setMacro name body).code = Function.update f.code name (some (Tree.unplacedAll body)) := by
  funext other
  by_cases same : other = name
  · subst same
    simp [code, macro?, setMacro, Bindings.get?_set_self]
  · simp [code, macro?, setMacro, Bindings.get?_set_of_ne same, Function.update_of_ne same]

namespace FrameStack

/-- The first stack has a macro in its root frame that the second need not have. All else is the same
but for places. -/
structure Exchanged (name : String) (body : List Tree) (s t : FrameStack) : Prop where
  bare : s.bare = t.bare
  inner : s.inner.map Frame.code = t.inner.map Frame.code
  root : ∀ other, s.root.code other =
    (t.root.code other).or (if other = name then some body else none)

variable {name : String} {body : List Tree} {s t : FrameStack}

theorem Exchanged.resembles (h : Exchanged name body s t) : s.bare.Resembles t.bare := by
  rw [h.bare]
  exact .refl _

theorem Exchanged.depth (h : Exchanged name body s t) : s.depth = t.depth := by
  have size := congrArg List.length h.inner
  rw [List.length_map, List.length_map] at size
  rw [FrameStack.depth, FrameStack.depth, size]

theorem Exchanged.push (h : Exchanged name body s t) (f : Frame) :
    Exchanged name body (s.push f) (t.push f) where
  bare := congrArg (FrameStack.push f.bare) h.bare
  inner := congrArg (f.code :: ·) h.inner
  root := h.root

theorem Exchanged.drop (h : Exchanged name body s t) (n : Nat) :
    Exchanged name body { s with inner := s.inner.drop n } { t with inner := t.inner.drop n } where
  bare := by
    have inner := congrArg (fun u : FrameStack => u.inner.drop n) h.bare
    have root := congrArg FrameStack.root h.bare
    simp only [FrameStack.bare, ← List.map_drop] at inner root ⊢
    rw [inner, root]
  inner := by
    have inner := congrArg (List.drop n) h.inner
    rwa [← List.map_drop, ← List.map_drop] at inner
  root := h.root

theorem Exchanged.truncate (h : Exchanged name body s t) {depth depth' : Nat}
    (same : depth = depth') : Exchanged name body (s.truncate depth) (t.truncate depth') := by
  rw [FrameStack.truncate, FrameStack.truncate, h.depth, same]
  exact h.drop _

theorem Exchanged.updateTop (h : Exchanged name body s t) {change change' : Frame → Frame}
    (update : (String → Option (List Tree)) → String → Option (List Tree))
    (bare : ∀ f g : Frame, f.bare = g.bare → (change f).bare = (change' g).bare)
    (left : ∀ f, (change f).code = update f.code) (right : ∀ f, (change' f).code = update f.code)
    (commutes : ∀ codes codes' : String → Option (List Tree),
      (∀ other, codes other = (codes' other).or (if other = name then some body else none)) →
        ∀ other, update codes other =
          (update codes' other).or (if other = name then some body else none)) :
    Exchanged name body (s.updateTop change) (t.updateTop change') := by
  obtain ⟨inner, root⟩ := s
  obtain ⟨outer, floor⟩ := t
  obtain ⟨bare', codes, roots⟩ := h
  simp only [FrameStack.bare, FrameStack.mk.injEq] at bare'
  cases inner with
  | nil =>
    cases outer with
    | cons => cases codes
    | nil =>
      refine ⟨?_, rfl, ?_⟩
      · simp only [FrameStack.updateTop, FrameStack.bare, bare root floor bare'.2, List.map_nil]
      · simp only [FrameStack.updateTop, left, right]
        exact commutes _ _ roots
  | cons f inner =>
    cases outer with
    | nil => cases codes
    | cons g outer =>
      simp only [List.map_cons, List.cons.injEq] at codes bare'
      refine ⟨?_, ?_, roots⟩
      · simp only [FrameStack.updateTop, FrameStack.bare, List.map_cons, bare f g bare'.1.1,
          bare'.1.2, bare'.2]
      · simp only [FrameStack.updateTop, List.map_cons, left, right, codes.1, codes.2]

theorem Exchanged.change (h : Exchanged name body s t) {change : Frame → Frame}
    (bare : ∀ f, (change f).bare = (change f.bare).bare) (same : ∀ f, (change f).code = f.code) :
    Exchanged name body (s.updateTop change) (t.updateTop change) :=
  h.updateTop id (fun f g alike => by rw [bare, alike, ← bare]) same same
    fun _ _ together => together

theorem Exchanged.setMacro (h : Exchanged name body s t) (other : String) {first second : List Tree}
    (same : Tree.unplacedAll first = Tree.unplacedAll second) :
    Exchanged name body (s.updateTop (Frame.setMacro other first))
      (t.updateTop (Frame.setMacro other second)) := by
  refine h.updateTop (fun codes => Function.update codes other (some (Tree.unplacedAll second)))
    (fun f g alike => alike) ?_ ?_ ?_
  · intro f
    rw [Frame.code_setMacro, same]
  · intro f
    rw [Frame.code_setMacro]
  · intro codes codes' together asked
    by_cases found : asked = other
    · simp [found]
    · simp only [Function.update_of_ne found, together]

theorem macro?_unplaced (s : FrameStack) (name : String) :
    (s.macro? name).map Tree.unplacedAll =
      ((s.inner.map Frame.code).findSome? (· name)).or (s.root.code name) := by
  rw [macro?, toList, List.map_findSome?, List.findSome?_append, List.findSome?_map]
  congr 1
  exact List.findSome?_singleton

theorem Exchanged.macro? (h : Exchanged name body s t) (asked : String) :
    (s.macro? asked).map Tree.unplacedAll = ((t.macro? asked).map Tree.unplacedAll).or
      (if asked = name then some body else none) := by
  rw [macro?_unplaced, macro?_unplaced, h.inner, h.root, Option.or_assoc]

end FrameStack

/-- Two set-ups of a run. The second has a partial in place of a macro. -/
structure Exchange where
  name : String
  body : List Tree
  first : RunOptions
  second : RunOptions

/-- Set-ups that are the same but for the partial, which is compiled to the code of the macro. -/
structure Exchange.Lawful (E : Exchange) : Prop where
  alike : E.first = { E.second with partials := E.first.partials }
  others : ∀ other ≠ E.name, E.first.partials.get? other = E.second.partials.get? other
  own : ∃ source compiled, E.second.partials.get? E.name = some source ∧
    Context.compileSource .core E.second source = .ok compiled ∧ compiled.problems = [] ∧
      Tree.unplacedAll compiled.template.body = E.body

namespace Context

/-- States of two runs with a macro and a partial in place of each other. -/
structure Exchanged (E : Exchange) (x y : Context) : Prop where
  options : x.options = E.first ∧ y.options = E.second
  frames : x.frames.Exchanged E.name E.body y.frames
  output : x.output = y.output
  active : x.active = y.active
  unlimited : x.limiter = none ∧ y.limiter = none
  kept : ∀ other ≠ E.name, x.compiled.get? other = y.compiled.get? other
  keptOwn : ∀ body, y.compiled.get? E.name = some body → Tree.unplacedAll body = E.body
  problems : x.problems.map Diagnostic.unplaced = y.problems.map Diagnostic.unplaced
  logged : x.logged.map Diagnostic.unplaced = y.logged.map Diagnostic.unplaced

variable {E : Exchange} {x y x' y' : Context}

theorem Exchanged.relocate (h : x.Exchanged E y) (place place' : Text.Position) :
    Exchanged E { x with place } { y with place := place' } := { h with }

theorem Exchanged.withFrames (h : x.Exchanged E y) {s t : FrameStack}
    (frames : s.Exchanged E.name E.body t) :
    Exchanged E { x with frames := s } { y with frames := t } := { h with frames }

theorem Exchanged.withOutput (h : x.Exchanged E y) {text text' : String} (output : text = text') :
    Exchanged E { x with output := text } { y with output := text' } := { h with output }

theorem Exchanged.withActive (h : x.Exchanged E y) {names names' : List String}
    (active : names = names') :
    Exchanged E { x with active := names } { y with active := names' } := { h with active }

theorem Exchanged.note (h : x.Exchanged E y) {d e : Diagnostic} (same : d.unplaced = e.unplaced) :
    (x.note d).Exchanged E (y.note e) :=
  { h with problems := by simp only [Context.note, List.map_append, h.problems, List.map_cons, same] }

theorem Exchanged.log (h : x.Exchanged E y) {d e : Diagnostic} (same : d.unplaced = e.unplaced) :
    Exchanged E { x with logged := x.logged ++ [d] } { y with logged := y.logged ++ [e] } :=
  { h with logged := by simp only [List.map_append, h.logged, List.map_cons, same] }

theorem Exchanged.setVar (h : x.Exchanged E y) (name : String) (node : Node) :
    (x.setVar name node).Exchanged E (y.setVar name node) :=
  h.withFrames (h.frames.change (fun _ => rfl) fun _ => rfl)

theorem Exchanged.compiledOnce (h : x.Exchanged E y) :
    x.compiledOnce.Exchanged E y.compiledOnce := { h with }

theorem Exchanged.noteFaulty (h : x.Exchanged E y) (name : String) (found : List Diagnostic) :
    (x.noteFaulty name found).Exchanged E (y.noteFaulty name found) := by
  unfold Context.noteFaulty
  split
  · exact h
  · exact h.note rfl

theorem Exchanged.keep (h : x.Exchanged E y) {name : String} (different : name ≠ E.name)
    (body : List Tree) : (x.keep name body).Exchanged E (y.keep name body) :=
  { h with
    kept := fun other own => by
      by_cases same : other = name
      · rw [same, Context.keep, Context.keep, Bindings.get?_set_self, Bindings.get?_set_self]
      · rw [Context.keep, Context.keep, Bindings.get?_set_of_ne same, Bindings.get?_set_of_ne same,
          h.kept other own]
    keptOwn := fun code kept => by
      rw [Context.keep, Bindings.get?_set_of_ne different.symm] at kept
      exact h.keptOwn code kept }

theorem Exchanged.keepOwn (h : x.Exchanged E y) {body : List Tree}
    (same : Tree.unplacedAll body = E.body) : x.Exchanged E (y.compiledOnce.keep E.name body) :=
  { h with
    kept := fun other own =>
      (h.kept other own).trans (Bindings.get?_set_of_ne own body).symm
    keptOwn := fun code kept => by
      cases (Bindings.get?_set_self E.name body).symm.trans kept
      exact same }

theorem Exchanged.safe (lawful : E.Lawful) (h : x.Exchanged E y) :
    x.options.safe = y.options.safe := by
  rw [h.options.1, h.options.2, lawful.alike]

theorem Exchanged.blind {α : Type} {f : Context → α} (lawful : E.Lawful) (h : x.Exchanged E y)
    (blind : Blind f) : f x = f y := by
  refine blind x y h.frames.resembles ?_
  rw [h.options.1, h.options.2, lawful.alike]

theorem Exchanged.resolve (h : x.Exchanged E y) : x.resolve = y.resolve :=
  resolve_bare h.frames.resembles

end Context

namespace Step

variable {E : Exchange} {α β : Type}

/-- Outcomes that are the same but for places. -/
structure Meet (E : Exchange) (l r : Except Failure α × Context) : Prop where
  result : l.1.mapError Failure.unplaced = r.1.mapError Failure.unplaced
  state : l.2.Exchanged E r.2

def Exchanges (E : Exchange) (s t : Step α) : Prop :=
  ∀ x y : Context, x.Exchanged E y → Meet E (s x) (t y)

section

variable {x y : Context} {s t : Step α} {k l : α → Step β}

theorem Meet.of_ok {a b : α} (same : a = b) (h : x.Exchanged E y) :
    Meet E (.ok a, x) (.ok b, y) := ⟨by rw [same], h⟩

theorem Meet.of_error {f g : Failure} (same : f.unplaced = g.unplaced) (h : x.Exchanged E y) :
    Meet (α := α) E (.error f, x) (.error g, y) := ⟨congrArg Except.error same, h⟩

theorem Meet.cases {l r : Except Failure α × Context} (h : Meet E l r) :
    (∃ a x y, l = (.ok a, x) ∧ r = (.ok a, y) ∧ x.Exchanged E y) ∨
      ∃ f g x y, l = (.error f, x) ∧ r = (.error g, y) ∧ f.unplaced = g.unplaced ∧
        x.Exchanged E y := by
  obtain ⟨f | a, x⟩ := l <;> obtain ⟨g | b, y⟩ := r <;> obtain ⟨same, state⟩ := h
  · exact .inr ⟨f, g, x, y, rfl, rfl, Except.error.inj same, state⟩
  · cases same
  · cases same
  · cases Except.ok.inj same
    exact .inl ⟨a, x, y, rfl, rfl, state⟩

theorem Meet.map {l r : Except Failure α × Context} (h : Meet E l r) (g : α → β) :
    Meet E (l.1.map g, l.2) (r.1.map g, r.2) := by
  rcases h.cases with ⟨a, x, y, rfl, rfl, state⟩ | ⟨f, f', x, y, rfl, rfl, same, state⟩
  · exact .of_ok rfl state
  · exact .of_error same state

theorem Meet.change {l r : Except Failure α × Context} (h : Meet E l r) {g g' : Context → Context}
    (state : ∀ {x y : Context}, x.Exchanged E y → (g x).Exchanged E (g' y)) :
    Meet E (l.1, g l.2) (r.1, g' r.2) := ⟨h.result, state h.state⟩

theorem exchanges_value (a : α) : Exchanges E (pure a : Step α) (pure a) :=
  fun _ _ h => .of_ok rfl h

theorem exchanges_read {f : Context → α} (same : ∀ {x y : Context}, x.Exchanged E y → f x = f y) :
    Exchanges E (read f) (read f) := fun _ _ h => .of_ok (same h) h

theorem exchanges_modify {f g : Context → Context}
    (same : ∀ x y : Context, x.Exchanged E y → (f x).Exchanged E (g y)) :
    Exchanges E (modify f) (modify g) := fun x y h => .of_ok rfl (same x y h)

theorem Exchanges.bind (first : Exchanges E s t) (next : ∀ a, Exchanges E (k a) (l a)) :
    Exchanges E (s >>= k) (t >>= l) := by
  intro x y h
  rcases (first x y h).cases with
    ⟨a, x', y', left, right, state⟩ | ⟨f, g, x', y', left, right, same, state⟩
  · rw [bind_ok left, bind_ok right]
    exact next a x' y' state
  · rw [bind_error left, bind_error right]
    exact .of_error same state

theorem Exchanges.within (h : Exchanges E s t) (node : Node) :
    Exchanges E (within node s) (within node t) := by
  have entered : Exchanges E (modify (Context.enter node)) (modify (Context.enter node)) :=
    exchanges_modify fun _ _ h => h.withFrames (h.frames.push _)
  have left : Exchanges E (modify Context.pop) (modify Context.pop) :=
    exchanges_modify fun _ _ h => h.withFrames (h.frames.drop 1)
  exact entered.bind fun _ => h.bind fun a => left.bind fun _ => exchanges_value a

theorem Exchanges.rounds {round round' : Bool → Step Unit}
    (h : ∀ last, Exchanges E (round last) (round' last)) (i : Nat) (items : List Json.Value) :
    Exchanges E (roundsOf round i items) (roundsOf round' i items) := by
  have numbered (i : Nat) : Exchanges E (modify (Context.updateTop (Frame.setIndex (some i))))
      (modify (Context.updateTop (Frame.setIndex (some i)))) :=
    exchanges_modify fun _ _ h => h.withFrames (h.frames.change (fun _ => rfl) fun _ => rfl)
  exact roundsOf_related round round' (exchanges_value ()) numbered (fun last => (h last).within)
    (fun first next => first.bind fun _ => next) i items

theorem exchanges_count : Exchanges E count count := by
  intro x y h
  rw [count_none h.unlimited.1, count_none h.unlimited.2]
  exact .of_ok rfl h

theorem exchanges_write (text : String) :
    Exchanges E (modify (Context.write text)) (modify (Context.write text)) :=
  exchanges_modify fun _ _ h => h.withOutput (by rw [h.output])

theorem exchanges_assign (vars : Bindings Node) :
    Exchanges E (modify (assignAll vars)) (modify (assignAll vars)) := by
  refine exchanges_modify fun x y h => ?_
  induction vars with
  | nil => exact h
  | cons var rest ih => exact ih.setVar var.1 var.2

theorem exchanges_define (name : String) {first second : List Tree}
    (same : Tree.unplacedAll first = Tree.unplacedAll second) :
    Exchanges E (modify (Context.setMacro name first)) (modify (Context.setMacro name second)) :=
  exchanges_modify fun _ _ h => h.withFrames (h.frames.setMacro name same)

theorem exchanges_noteProblems (program : Program) :
    Exchanges E (noteProblems program) (noteProblems program) := by
  refine exchanges_modify fun x y h => ?_
  induction program.problems generalizing x y with
  | nil => exact h
  | cons message more ih => exact ih _ _ (h.note rfl)

theorem exchanges_evaluate (program : Program) :
    Exchanges E (evaluate program) (evaluate program) := by
  intro x y h
  let scope := evaluationScope program.source
  have related : scope.Related scope fun e f =>
      e.context.Exchanged E f.context ∧ e.failures = f.failures :=
    { lookup := fun name ⟨now, _⟩ => by
        change ExprValue.ofNode _ = ExprValue.ofNode _
        rw [now.resolve]
      assign := fun name v ⟨now, failures⟩ => ⟨now.setVar name _, failures⟩
      report := fun message ⟨now, failures⟩ => ⟨now.note rfl, congrArg (· + 1) failures⟩ }
  obtain ⟨value, state, failures⟩ := program.reduce_related related (s := ⟨x, 0⟩) (t := ⟨y, 0⟩)
    ⟨h, rfl⟩
  exact .of_ok (Prod.ext value failures) state

end

section

variable (lawful : E.Lawful)

include lawful

theorem Meet.refuse {x y : Context} (h : x.Exchanged E y) {d e : Diagnostic}
    (same : d.unplaced = e.unplaced) : Meet E (refuse d x) (refuse e y) := by
  unfold Step.refuse
  rw [h.safe lawful]
  split
  · exact .of_ok rfl (h.note same)
  · exact .of_error (congrArg Failure.problem same) h

theorem Meet.recover {x y : Context} (h : x.Exchanged E y) (place place' : Text.Position)
    (source : List Char) (depth : Nat) {f g : Failure} (same : f.unplaced = g.unplaced) :
    Meet E (recover place source depth f x) (recover place' source depth g y) := by
  have cut : (x.cut depth).Exchanged E (y.cut depth) := h.withFrames (h.frames.truncate rfl)
  have alike : f.unexpected? = g.unexpected? := by
    rw [← f.unplaced_unexpected?, same, g.unplaced_unexpected?]
  rw [recover_eq, recover_eq, alike]
  cases g.unexpected? with
  | none => exact .of_error same cut
  | some told =>
    have logged := cut.log (d := unexpected place source told.1 told.2)
      (e := unexpected place' source told.1 told.2) rfl
    exact Meet.refuse lawful logged rfl

theorem Meet.instruction {s t : Step Unit} {place place' : Text.Position} {source : List Char}
    {x y : Context} (depth : x.depth = y.depth)
    (h : Meet E ((do count; s : Step Unit) { x with place })
      ((do count; t : Step Unit) { y with place := place' })) :
    Meet E (instruction place source s x) (instruction place' source t y) := by
  rcases h.cases with
    ⟨_, x', y', left, right, state⟩ | ⟨f, g, x', y', left, right, same, state⟩
  · rw [instruction_ok left, instruction_ok right]
    exact .of_ok rfl (state.relocate _ _)
  · rw [instruction_error left, instruction_error right, depth]
    exact (Meet.recover lawful state place place' source y.depth same).change
      fun h => h.relocate _ _

theorem Exchanges.instruction {s t : Step Unit} (h : Exchanges E s t)
    (place place' : Text.Position) (source : List Char) :
    Exchanges E (instruction place source s) (instruction place' source t) := by
  intro x y before
  have counted : Exchanges E (do count; s) (do count; t) := exchanges_count.bind fun _ => h
  exact (counted _ _ (before.relocate place place')).instruction lawful before.frames.depth

theorem Exchanges.whole {s t : Step Unit} (h : Exchanges E s t) :
    Exchanges E (whole s) (whole t) :=
  fun x y before => h.instruction lawful x.place y.place [] x y before

end

structure FindsAlike (E : Exchange)
    (l r : Except Diagnostic (Option (List Tree)) × Context) : Prop where
  found : l.1.map (Option.map Tree.unplacedAll) = r.1.map (Option.map Tree.unplacedAll)
  state : l.2.Exchanged E r.2

section

variable {x y : Context} {name : String}

theorem find_own (lawful : E.Lawful) (h : x.Exchanged E y) {body : List Tree}
    (macro' : x.frames.macro? E.name = some body) (same : Tree.unplacedAll body = E.body)
    (undefined : y.frames.macro? E.name = none) :
    FindsAlike E (x.findPartial .core E.name) (y.findPartial .core E.name) := by
  rw [Context.find_defined macro']
  cases kept : y.compiled.get? E.name with
  | some body' =>
    rw [Context.find_kept undefined kept]
    exact ⟨congrArg (Except.ok ∘ some) (same.trans (h.keptOwn body' kept).symm), h⟩
  | none =>
    -- The first use of the partial. Its source has no problem, so nothing is noted but the code.
    obtain ⟨source, compiled, found, ok, clean, code⟩ := lawful.own
    rw [← h.options.2] at found ok
    rw [Context.find_compiled undefined kept found ok, clean]
    exact ⟨congrArg (Except.ok ∘ some) (same.trans code.symm), h.keepOwn code⟩

theorem find_other (lawful : E.Lawful) (h : x.Exchanged E y) (other : name ≠ E.name)
    (undefined : x.frames.macro? name = none) (undefined' : y.frames.macro? name = none) :
    FindsAlike E (x.findPartial .core name) (y.findPartial .core name) := by
  have alike := h.kept name other
  have partials := lawful.others name other
  rw [← h.options.1, ← h.options.2] at partials
  have compiles (source : String) : Context.compileSource .core x.options source =
      Context.compileSource .core y.options source := by
    rw [h.options.1, h.options.2, lawful.alike]
    rfl
  cases kept : y.compiled.get? name with
  | some body =>
    rw [kept] at alike
    rw [Context.find_kept undefined alike, Context.find_kept undefined' kept]
    exact ⟨rfl, h⟩
  | none =>
    rw [kept] at alike
    cases found : y.options.partials.get? name with
    | none =>
      rw [found] at partials
      rw [Context.find_missing undefined alike partials, Context.find_missing undefined' kept found]
      exact ⟨rfl, h⟩
    | some source =>
      rw [found] at partials
      cases outcome : Context.compileSource .core y.options source with
      | error d =>
        rw [Context.find_faulty undefined alike partials ((compiles source).trans outcome),
          Context.find_faulty undefined' kept found outcome]
        exact ⟨rfl, h.compiledOnce⟩
      | ok compiled =>
        rw [Context.find_compiled undefined alike partials ((compiles source).trans outcome),
          Context.find_compiled undefined' kept found outcome]
        exact ⟨rfl, (h.compiledOnce.noteFaulty name compiled.problems).keep other _⟩

theorem find_exchanged (lawful : E.Lawful) (h : x.Exchanged E y) (name : String) :
    FindsAlike E (x.findPartial .core name) (y.findPartial .core name) := by
  have macros := h.frames.macro? name
  cases right : y.frames.macro? name with
  | some body' =>
    rw [right, Option.map_some, Option.some_or] at macros
    obtain ⟨body, left, same⟩ := Option.map_eq_some_iff.mp macros
    rw [Context.find_defined left, Context.find_defined right]
    exact ⟨congrArg (Except.ok ∘ some) same, h⟩
  | none =>
    rw [right, Option.map_none, Option.none_or] at macros
    -- A macro of the second run would hide the partial; only the root of the first can have one.
    by_cases own : name = E.name
    · subst own
      rw [if_pos rfl] at macros
      obtain ⟨body, left, same⟩ := Option.map_eq_some_iff.mp macros
      exact find_own lawful h left same right
    · rw [if_neg own, Option.map_eq_none_iff] at macros
      exact find_other lawful h own macros right

end

section

variable (lawful : E.Lawful)

include lawful

theorem exchanges_obtained {missing faulty : RunFault} (name : String)
    {k l : Option (List Tree) → Step α} (none' : Exchanges E (k none) (l none))
    (some' : ∀ body body', Tree.unplacedAll body = Tree.unplacedAll body' →
      Exchanges E (k (some body)) (l (some body'))) :
    Exchanges E (obtainPartial .core missing faulty name >>= k)
      (obtainPartial .core missing faulty name >>= l) := by
  intro x y h
  have left := obtainPartial_eq .core missing faulty name x
  have right := obtainPartial_eq .core missing faulty name y
  obtain ⟨same, state⟩ := find_exchanged lawful h name
  generalize x.findPartial .core name = found at left same state
  generalize y.findPartial .core name = found' at right same state
  obtain ⟨d | _ | body, x'⟩ := found <;> obtain ⟨d' | _ | body', y'⟩ := found'
  all_goals first | cases same | skip
  · rw [bind_error left, bind_error right]
    exact .of_error rfl state
  · have refused := Meet.refuse lawful state (d := (x'.problem missing).withName name)
      (e := (y'.problem missing).withName name) rfl
    rcases refused.cases with ⟨_, z, w, one, two, later⟩ | ⟨f, g, z, w, one, two, alike, later⟩
    all_goals
      simp only [one] at left
      simp only [two] at right
    · rw [bind_ok left, bind_ok right]
      exact none' z w later
    · rw [bind_error left, bind_error right]
      exact .of_error alike later
  · rw [bind_ok left, bind_ok right]
    exact some' body body' (Option.some.inj (Except.ok.inj same)) x' y' state

theorem Exchanges.asPartial {s t : Step α} (h : Exchanges E s t) (name : String) :
    Exchanges E (asPartial name s) (asPartial name t) := by
  intro x y before
  have active := before.active
  cases busy : y.active.contains name with
  | true =>
    have busy' := busy
    rw [← active] at busy'
    rw [asPartial_refused busy', asPartial_refused busy]
    have refused := Meet.refuse lawful before
      (d := (x.problem .applyPartialRecursion).withName name)
      (e := (y.problem .applyPartialRecursion).withName name) rfl
    exact refused.map fun () => none
  | false =>
    have busy' := busy
    rw [← active] at busy'
    rw [asPartial_entered busy', asPartial_entered busy]
    have entered := before.withActive (congrArg (name :: ·) active)
    exact ((h _ _ entered).map some).change fun later => later.withActive (by rw [later.active])

end

theorem Exchanges.capture {s t : Step Unit} (h : Exchanges E s t) (frame : Frame) :
    Exchanges E (capture frame s) (capture frame t) := by
  intro x y before
  have entered := (before.withFrames (before.frames.push frame)).withOutput (rfl : "" = "")
  have inside := h { x.push frame with output := "" } { y.push frame with output := "" } entered
  have depth : x.depth = y.depth := before.frames.depth
  unfold Step.capture
  rcases inside.cases with ⟨_, x', y', left, right, later⟩ | ⟨f, g, x', y', left, right, same, later⟩
  all_goals
    have left' := (later.withFrames (later.frames.truncate depth)).withOutput before.output
    rw [left, right]
  · exact .of_ok later.output left'
  · exact .of_error same left'

theorem Exchanges.silent {s t : Step Unit} (h : Exchanges E s t) :
    Exchanges E (silent s) (silent t) := by
  intro x y before
  exact (h _ _ (before.withOutput (rfl : "" = ""))).change fun later => later.withOutput before.output

theorem exchanges_test (call : Call) :
    Exchanges E (Catalog.core.test call) (Catalog.core.test call) := by
  intro x y h
  unfold Catalog.test
  cases known : Catalog.core.predicate? call.name with
  | none => exact .of_ok rfl h
  | some p =>
    obtain ⟨predicate, rfl⟩ := exists_of_get? known
    dsimp only [CorePredicate.toPredicate]
    rw [h.resolve]
    exact ⟨rfl, h⟩

def NestedExchanges (E : Exchange) (nested nested' : Nested) : Prop :=
  ∀ name body body', Tree.unplacedAll body = Tree.unplacedAll body' →
    Exchanges E (nested name body) (nested' name body')

section

variable {nested nested' : Nested} (lawful : E.Lawful) (nesting : NestedExchanges E nested nested')

include lawful nesting

theorem exchanges_formatter (call : Call) (vars : Variables) :
    Exchanges E (applyFormatter .core nested call vars) (applyFormatter .core nested' call vars) := by
  unfold applyFormatter
  cases known : Catalog.core.formatter? call.name with
  | none => exact exchanges_value vars
  | some f =>
    obtain ⟨formatter, rfl⟩ := exists_of_get? known
    rw [Option.map_some, CoreFormatter.toFormatter]
    rcases formatter.transform_cases with same | same
    all_goals
      rw [same]
      dsimp only
    · refine Exchanges.bind ?_ fun node => exchanges_value _
      refine exchanges_obtained lawful _ (exchanges_value _) fun body body' equal => ?_
      have printed := ((nesting call.args.first body body' equal).whole lawful).capture
        (partialFrame (call.args.values.drop 1) vars.first)
      refine (printed.asPartial lawful _).bind fun text => ?_
      cases text <;> exact exchanges_value _
    · intro x y h
      rw [compute_eq, compute_eq, h.resolve]
      exact ⟨rfl, h⟩

theorem exchanges_include (name : String) (output : Bool) :
    Exchanges E (runInclude .core nested name output) (runInclude .core nested' name output) := by
  have includes : Exchanges E (read fun ctx => ctx.options.includes)
      (read fun ctx => ctx.options.includes) := exchanges_read fun {x y} h => by
    rw [h.options.1, h.options.2, lawful.alike]
  refine includes.bind fun included => ?_
  cases included with
  | false => exact exchanges_value ()
  | true =>
    refine exchanges_obtained lawful _ (exchanges_value ()) fun body body' equal => ?_
    have inside := ((nesting name body body' equal).asPartial lawful name).bind fun _ =>
      exchanges_value (E := E) ()
    cases output with
    | true => exact inside
    | false => exact inside.silent

theorem Mirror.exchanges {names : String → Prop} {s t : Step α}
    (h : Mirror .core nested nested' names s t) : Exchanges E s t := by
  induction h with
  | value a => exact exchanges_value a
  | bind _ _ first next => exact first.bind next
  | look f blind => exact exchanges_read fun h => h.blind lawful blind
  | count => exact exchanges_count
  | test call => exact exchanges_test call
  | write text => exact exchanges_write text
  | assign vars => exact exchanges_assign vars
  | define name body _ => exact exchanges_define name rfl
  | noteProblems program => exact exchanges_noteProblems program
  | evaluate program => exact exchanges_evaluate program
  | within node _ inside => exact inside.within node
  | rounds node i items _ inside => exact (Exchanges.rounds inside i items).within node
  | instruction place source _ inside => exact inside.instruction lawful place place source
  | format call vars => exact exchanges_formatter lawful nesting call vars
  | includePartial name output => exact exchanges_include lawful nesting name output

end

section

variable {nested nested' : Nested}

-- `Mirror` has the same tree in both runs; here the trees differ in places: both are taken apart.
-- The induction is on the first, and the second has the same constructor.
mutual

theorem exchanges_tree (lawful : E.Lawful) (nesting : NestedExchanges E nested nested')
    {t u : Tree} (same : t.unplaced = u.unplaced) :
    Exchanges E (runTree .core nested t) (runTree .core nested' u) := by
  match t with
  | .leaf place l =>
    cases u with
    | leaf place' l' =>
      cases same
      have inside := (mirror_leaf .core nested nested' (fun _ => True) l).exchanges lawful nesting
      exact inside.instruction lawful place place' _
    | block | repeated | macroDef => cases same
  | .block place o body tail =>
    cases u with
    | block place' o' body' tail' =>
      simp only [Tree.unplaced, Tree.block.injEq, true_and] at same
      obtain ⟨rfl, bodies, tails⟩ := same
      have inside := exchanges_trees lawful nesting bodies
      have entered := (mirror_entry .core nested nested' (fun _ => True) o).exchanges lawful nesting
      refine (entered.bind fun entry => ?_).instruction lawful place place' _
      cases entry with
      | skip => exact exchanges_tail lawful nesting tails
      | inside => exact inside
      | on node => exact inside.within node
    | leaf | repeated | macroDef => cases same
  | .repeated place var body alternates tail =>
    cases u with
    | repeated place' var' body' alternates' tail' =>
      simp only [Tree.unplaced, Tree.repeated.injEq, true_and] at same
      obtain ⟨rfl, bodies, betweens, tails⟩ := same
      have looked : Exchanges E (read (Context.resolveSection · var))
          (read (Context.resolveSection · var)) :=
        exchanges_read fun h => h.blind lawful (blind_resolveSection var)
      refine (looked.bind fun node => ?_).instruction lawful place place' _
      cases sectionItems node with
      | nil => exact exchanges_tail lawful nesting tails
      | cons item rest =>
        dsimp only
        rw [rounds_eq, rounds_eq]
        refine (Exchanges.rounds (fun last => ?_) 0 (item :: rest)).within node
        refine (exchanges_trees lawful nesting bodies).bind fun _ => ?_
        cases last with
        | true => exact exchanges_value ()
        | false => exact exchanges_alternates lawful nesting betweens
    | leaf | block | macroDef => cases same
  | .macroDef place name body close =>
    cases u with
    | macroDef place' name' body' close' =>
      simp only [Tree.unplaced, Tree.macroDef.injEq, true_and] at same
      obtain ⟨rfl, bodies, -⟩ := same
      exact (exchanges_define name bodies).instruction lawful place place' _
    | leaf | block | repeated => cases same

theorem exchanges_trees (lawful : E.Lawful) (nesting : NestedExchanges E nested nested')
    {trees others : List Tree}
    (same : Tree.unplacedAll trees = Tree.unplacedAll others) :
    Exchanges E (runTrees .core nested trees) (runTrees .core nested' others) := by
  match trees with
  | [] =>
    cases others with
    | nil => exact exchanges_value ()
    | cons => cases same
  | t :: trees =>
    cases others with
    | nil => cases same
    | cons u others =>
      obtain ⟨first, later⟩ := List.cons.inj same
      exact (exchanges_tree lawful nesting first).bind fun _ => exchanges_trees lawful nesting later

theorem exchanges_tail (lawful : E.Lawful) (nesting : NestedExchanges E nested nested')
    {tail other : Tail} (same : Tree.unplacedTail tail = Tree.unplacedTail other) :
    Exchanges E (runTail .core nested tail) (runTail .core nested' other) := by
  match tail with
  | .unclosed =>
    cases other with
    | unclosed => exact exchanges_value ()
    | closed | or => cases same
  | .closed place =>
    cases other with
    | closed place' => exact (exchanges_value ()).instruction lawful place place' _
    | unclosed | or => cases same
  | .or place call body tail =>
    cases other with
    | or place' call' body' tail' =>
      simp only [Tree.unplacedTail, Tail.or.injEq, true_and] at same
      obtain ⟨rfl, bodies, tails⟩ := same
      have chosen (taken : Bool) : Exchanges E
          (if taken then runTrees .core nested body else runTail .core nested tail)
          (if taken then runTrees .core nested' body' else runTail .core nested' tail') := by
        cases taken with
        | true => exact exchanges_trees lawful nesting bodies
        | false => exact exchanges_tail lawful nesting tails
      cases call with
      | none => exact ((exchanges_value true).bind chosen).instruction lawful place place' _
      | some call => exact ((exchanges_test call).bind chosen).instruction lawful place place' _
    | unclosed | closed => cases same

theorem exchanges_alternates (lawful : E.Lawful) (nesting : NestedExchanges E nested nested')
    {alternates other : Alternates}
    (same : Tree.unplacedAlternates alternates = Tree.unplacedAlternates other) :
    Exchanges E (runAlternates .core nested alternates) (runAlternates .core nested' other) := by
  match alternates with
  | .none =>
    cases other with
    | none => exact exchanges_value ()
    | between => cases same
  | .between _ body _ =>
    cases other with
    | between _ body' _ =>
      simp only [Tree.unplacedAlternates, Alternates.between.injEq, true_and] at same
      exact exchanges_count.bind fun _ => exchanges_trees lawful nesting same.1
    | none => cases same

end

theorem exchanges_nested (lawful : E.Lawful) (depth : Nat) :
    NestedExchanges E (runNested .core depth) (runNested .core depth) := by
  induction depth with
  | zero => exact fun name body body' _ x y h => Meet.refuse lawful h rfl
  | succ depth ih => exact fun name body body' same => exchanges_trees lawful ih same

end

end Step

end JsonTemplate

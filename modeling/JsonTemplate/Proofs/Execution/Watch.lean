import JsonTemplate.Proofs.Execution.Neutral
import JsonTemplate.Proofs.Template.Sites

namespace JsonTemplate

/-- A frame that is pushed for a section. The frame of a round is pushed on that of its section and
has no name. -/
structure Pushed where
  name : Option String
  node : Node

namespace Pushed

/-- The names of the sections that frames are pushed for, the innermost frame first. -/
def names (pushed : List Pushed) : List String := pushed.reverse.filterMap name

def nodes (pushed : List Pushed) : List Node := pushed.map node

theorem names_cons (frame : Pushed) (pushed : List Pushed) :
    names (frame :: pushed) = names pushed ++ frame.name.toList := by
  obtain ⟨_ | name, node⟩ := frame <;> simp [names]

end Pushed

abbrev Watch := List Pushed → Instruction → Step Unit

namespace Step

/-- The rounds of a repeated section, where what is executed in a round is told its node. -/
def roundsOn (body between : Node → Step Unit) : Nat → List Json.Value → Step Unit
  | _, [] => pure ()
  | i, item :: rest => do
    modify (Context.updateTop (Frame.setIndex (some i)))
    let node := if (Node.value item).isNull then .missing else Node.value item
    within node do
      body node
      if !rest.isEmpty then between node
    roundsOn body between (i + 1) rest

section

variable (c : Catalog) (nested : Nested) (watch : Watch)

mutual

def watchTree (pushed : List Pushed) : Tree → Step Unit
  | .leaf place l =>
    instruction place l.source (do
      watch pushed ⟨place, .leaf l⟩
      runLeaf c nested l)
  | .block place o body tail =>
    instruction place o.source (do
      watch pushed ⟨place, .opening o⟩
      match ← entry c o with
      | .skip => watchTail pushed tail
      | .inside => watchTrees pushed body
      | .on node => within node (watchTrees (⟨(Op.opening o).opened, node⟩ :: pushed) body))
  | .repeated place var body alternates tail =>
    instruction place (repeatedSource var) (do
      watch pushed ⟨place, .repeated var⟩
      let node ← read (Context.resolveSection · var)
      match sectionItems node with
      | [] => watchTail pushed tail
      | items =>
        within node (roundsOn
          (fun item => watchTrees (⟨none, item⟩ :: ⟨var.text, node⟩ :: pushed) body)
          (fun item => watchAlternates (⟨none, item⟩ :: ⟨var.text, node⟩ :: pushed) alternates)
          0 items))
  | .macroDef place name body _ =>
    instruction place (macroSource name) (do
      watch pushed ⟨place, .macroStart name⟩
      modify (Context.setMacro name body))

def watchTrees (pushed : List Pushed) : List Tree → Step Unit
  | [] => pure ()
  | t :: rest => do
    watchTree pushed t
    watchTrees pushed rest

def watchTail (pushed : List Pushed) : Tail → Step Unit
  | .unclosed => pure ()
  | .closed place =>
    instruction place Op.close.source (do
      watch pushed ⟨place, .close⟩
      pure ())
  | .or place call body tail =>
    instruction place (orSource call) (do
      watch pushed ⟨place, .or call⟩
      let taken ← match call with
        | none => pure true
        | some call => c.test call
      if taken then watchTrees pushed body else watchTail pushed tail)

def watchAlternates (pushed : List Pushed) : Alternates → Step Unit
  | .none => pure ()
  | .between place body _ => do
    count
    watch pushed ⟨place, .alternates⟩
    watchTrees pushed body

end

end

/-- What holds at each instruction that code executes itself, for the frames that it has pushed and
the state: a watch that does nothing where it holds is of no effect. -/
def Always (c : Catalog) (nested : Nested) (body : List Tree)
    (P : List Pushed → Instruction → Context → Prop) (ctx : Context) : Prop :=
  ∀ watch : Watch, (∀ pushed i now, P pushed i now → watch pushed i now = (.ok (), now)) →
    watchTrees c nested watch [] body ctx = runTrees c nested body ctx

end Step

namespace Context

def nodes (ctx : Context) : List Node := ctx.frames.toList.map Frame.node

theorem nodes_eq (ctx : Context) :
    ctx.nodes = ctx.frames.top.node :: ctx.frames.below.map Frame.node := by
  rw [nodes, FrameStack.toList_eq, List.map_cons]

theorem nodes_enter (node : Node) (ctx : Context) : (ctx.enter node).nodes = node :: ctx.nodes := rfl

theorem Undisturbed.nodes {before after : Context} (h : before.Undisturbed after) :
    after.nodes = before.nodes := by
  rw [nodes_eq, nodes_eq, h.node, h.below]

theorem nodes_setIndex (i : Nat) (ctx : Context) :
    (ctx.updateTop (Frame.setIndex (some i))).nodes = ctx.nodes := by
  have same := FrameStack.top_updateTop (Frame.setIndex (some i)) ctx.frames
  have below := FrameStack.below_updateTop (Frame.setIndex (some i)) ctx.frames
  rw [nodes_eq, nodes_eq, updateTop, same, below]
  rfl

end Context

namespace Step

section

variable {α β : Type} {stack : List Node}

def KeepsNodes (s : Step α) : Prop :=
  ∀ {ctx a after}, s ctx = (.ok a, after) → after.nodes = ctx.nodes

theorem Keeps.nodes {s : Step α} (h : Keeps Context.Undisturbed s) : KeepsNodes s := by
  intro ctx a after outcome
  have kept := h ctx
  rw [outcome] at kept
  exact kept.nodes

def Agree (stack : List Node) (s t : Step α) : Prop :=
  ∀ ctx : Context, ctx.nodes = stack → s ctx = t ctx

theorem Agree.refl (s : Step α) : Agree stack s s := fun _ _ => rfl

theorem Agree.bind {s t : Step α} {k l : α → Step β} (first : Agree stack s t)
    (keeps : KeepsNodes t)
    (next : ∀ a, (∃ before after, t before = (.ok a, after)) → Agree stack (k a) (l a)) :
    Agree stack (s >>= k) (t >>= l) := by
  intro ctx same
  have begun := first ctx same
  rcases outcome : t ctx with ⟨f | a, middle⟩
  · rw [bind_error outcome, bind_error (begun.trans outcome)]
  · rw [bind_ok outcome, bind_ok (begun.trans outcome)]
    exact next a ⟨ctx, middle, outcome⟩ middle ((keeps outcome).trans same)

theorem Agree.then {s t : Step Unit} {k l : Step β} (first : Agree stack s t)
    (keeps : KeepsNodes t) (next : Agree stack k l) :
    Agree stack (do s; k) (do t; l) := .bind first keeps fun _ _ => next

theorem Agree.within {s t : Step α} {node : Node} (h : Agree (node :: stack) s t) :
    Agree stack (within node s) (within node t) := by
  intro ctx same
  have inside : s (ctx.enter node) = t (ctx.enter node) :=
    h _ ((Context.nodes_enter node ctx).trans (congrArg (node :: ·) same))
  simp only [Step.within, Bind.bind, andThen, modify, inside]

theorem Agree.instruction {s t : Step Unit} (h : Agree stack s t) (place : Text.Position)
    (source : List Char) :
    Agree stack (instruction place source s) (instruction place source t) := by
  intro ctx same
  have counted : Agree stack (do count; s) (do count; t) :=
    .then (.refl count) (calm_of_advances count_advances).keeps.nodes h
  have inside := counted { ctx with place } same
  simp only [Step.instruction, located, thenAlways, rescue, inside]

theorem Agree.roundsOn {body between : Node → Step Unit} {body' between' : Step Unit}
    (inside : ∀ node, Agree (node :: stack) (body node) body')
    (after : ∀ node, Agree (node :: stack) (between node) between')
    (keeps : Keeps Context.Undisturbed body') (kept : Keeps Context.Undisturbed between')
    (i : Nat) (items : List Json.Value) :
    Agree stack (roundsOn body between i items) (rounds body' between' i items) := by
  induction items generalizing i with
  | nil => exact .refl _
  | cons item rest ih =>
    have round (last : Bool) : Keeps Context.Undisturbed (do body'; if !last then between') := by
      refine .bind Context.Undisturbed.trans (fun same => same.depth) keeps fun _ => ?_
      cases last with
      | true => exact (calm_value ()).keeps
      | false => exact kept
    have agree (node : Node) (last : Bool) : Agree (node :: stack)
        (do body node; if !last then between node) (do body'; if !last then between') := by
      refine .then (inside node) keeps.nodes ?_
      cases last with
      | true => exact .refl _
      | false => exact after node
    refine .then (.refl _) (fun outcome => ?_)
      (.then (agree _ rest.isEmpty).within ((round rest.isEmpty).below.within _).nodes (ih (i + 1)))
    cases outcome
    exact Context.nodes_setIndex i _

end

theorem entry_inside {c : Catalog} {o : Opener} {ctx after : Context}
    (h : entry c o ctx = (.ok .inside, after)) : (Op.opening o).opened = none := by
  cases o with
  | sectionOn var =>
    simp only [entry, Bind.bind, andThen, read, Pure.pure, value] at h
    split at h <;> cases h
  | _ => rfl

/-- An instruction finds the frames on the stack that have been pushed since the start, and they are
those of the sections in whose scopes it stands, from those of the start on. -/
def InScope (found : List Site) (start : List String) (base : List Node) (pushed : List Pushed)
    (i : Instruction) (now : Context) : Prop :=
  now.nodes = Pushed.nodes pushed ++ base ∧
    ∃ s ∈ found, s.instruction = i ∧ Enclosing.scopes s.around = start ++ Pushed.names pushed

section

open Enclosing

/-- What is needed of a run that is watched: formatters and partials leave the frames as they were,
and the watch does nothing at instructions that are in scope. -/
structure Watched (c : Catalog) (nested : Nested) (watch : Watch) (found : List Site)
    (start : List String) (base : List Node) : Prop where
  tidy : c.Tidy
  nesting : ∀ name body, Calm (nested name body)
  silent : ∀ pushed i now, InScope found start base pushed i now →
    watch pushed i now = (.ok (), now)

variable {c : Catalog} {nested : Nested} {watch : Watch} {found : List Site} {start : List String}
  {base : List Node}

theorem Watched.agree (h : Watched c nested watch found start base) {s : Site} (among : s ∈ found)
    {pushed : List Pushed} (here : scopes s.around = start ++ Pushed.names pushed)
    {k l : Step Unit} (next : Agree (Pushed.nodes pushed ++ base) k l) :
    Agree (Pushed.nodes pushed ++ base) (do watch pushed s.instruction; k) l := by
  intro ctx same
  rw [bind_ok (h.silent pushed s.instruction ctx ⟨same, s, among, rfl, here⟩)]
  exact next ctx same

theorem scopes_enclosing (around : List Enclosing) (o : Opener) :
    scopes (around ++ o.enclosing true) = scopes around ++ (Op.opening o).opened.toList := by
  cases o <;> simp [Opener.enclosing, Op.opened, scopes, names]

theorem scopes_branch (around : List Enclosing) (o : Opener) :
    scopes (around ++ o.enclosing false) = scopes around := by
  cases o <;> simp [Opener.enclosing, scopes, names]

mutual

theorem watchTree_agree (h : Watched c nested watch found start base) (t : Tree)
    {pushed : List Pushed} {around : List Enclosing}
    (here : scopes around = start ++ Pushed.names pushed)
    (among : ∀ s ∈ t.sites around, s ∈ found) :
    Agree (Pushed.nodes pushed ++ base) (watchTree c nested watch pushed t) (runTree c nested t) := by
  match t with
  | .leaf place l =>
    exact (h.agree (among _ List.mem_cons_self) here (.refl _)).instruction place _
  | .block place o body tail =>
    have deeper (node : Node) : scopes (around ++ o.enclosing true) =
        start ++ Pushed.names (⟨(Op.opening o).opened, node⟩ :: pushed) := by
      rw [scopes_enclosing, here, Pushed.names_cons, List.append_assoc]
    have known : ∀ s ∈ Tree.sitesAll (around ++ o.enclosing true) body, s ∈ found := fun s member =>
      among s (List.mem_append_left _ (List.mem_cons_of_mem _ member))
    have after := watchTail_agree h tail ((scopes_branch around o).trans here) fun s member =>
      among s (List.mem_append_right _ member)
    refine .instruction (h.agree (among _ (List.mem_append_left _ List.mem_cons_self)) here
      (.bind (.refl _) ?_ fun entered outcome => ?_)) place _
    · exact ((mirror_entry c nested nested (fun _ => True) o).keeps h.tidy h.nesting).nodes
    · cases entered with
      | skip => exact after
      | inside =>
        -- Only a section pushes a frame, and it is never entered without one.
        obtain ⟨_, _, outcome⟩ := outcome
        have same : scopes (around ++ o.enclosing true) = start ++ Pushed.names pushed := by
          rw [scopes_enclosing, entry_inside outcome, Option.toList_none, List.append_nil, here]
        exact watchTrees_agree h body same known
      | on node => exact (watchTrees_agree h body (deeper node) known).within
  | .repeated place var body alternates tail =>
    -- A round has a frame on that of its section, so two frames have one name.
    have deeper (node item : Node) : scopes (around ++ [⟨var.text, true⟩]) =
        start ++ Pushed.names (⟨none, item⟩ :: ⟨var.text, node⟩ :: pushed) := by
      rw [scopes_append, here, Pushed.names_cons, Pushed.names_cons]
      simp [scopes, names]
    have outside : scopes (around ++ [⟨var.text, false⟩]) = start ++ Pushed.names pushed := by
      simpa [scopes, names] using here
    have inside (node item : Node) := watchTrees_agree h body (deeper node item) fun s member =>
      among s (List.mem_append_left _ (List.mem_append_left _ (List.mem_cons_of_mem _ member)))
    have between (node item : Node) := watchAlternates_agree h alternates (deeper node item)
      fun s member => among s (List.mem_append_right _ member)
    have after := watchTail_agree h tail outside fun s member =>
      among s (List.mem_append_left _ (List.mem_append_right _ member))
    refine .instruction (h.agree (among _ (List.mem_append_left _ (List.mem_append_left _
      List.mem_cons_self))) here
      (.bind (.refl _) (calm_read _).keeps.nodes fun node _ => ?_)) place _
    cases sectionItems node with
    | nil => exact after
    | cons item rest =>
      refine .within (.roundsOn (inside node) (between node) ?_ ?_ 0 (item :: rest))
      · exact (calm_trees h.tidy h.nesting body).keeps
      · exact (mirror_alternates c nested nested (fun _ => True) alternates
          fun _ _ => trivial).keeps h.tidy h.nesting
  | .macroDef place name body close =>
    exact (h.agree (among _ (List.mem_append_left _ List.mem_cons_self)) here
      (.refl _)).instruction place _

theorem watchTrees_agree (h : Watched c nested watch found start base) (body : List Tree)
    {pushed : List Pushed} {around : List Enclosing}
    (here : scopes around = start ++ Pushed.names pushed)
    (among : ∀ s ∈ Tree.sitesAll around body, s ∈ found) :
    Agree (Pushed.nodes pushed ++ base) (watchTrees c nested watch pushed body)
      (runTrees c nested body) := by
  match body with
  | [] => exact .refl _
  | t :: rest =>
    have first := watchTree_agree h t here fun s member => among s (List.mem_append_left _ member)
    have later := watchTrees_agree h rest here fun s member =>
      among s (List.mem_append_right _ member)
    have calm := single_tree c nested nested (fun _ => True) t fun _ _ => trivial
    exact first.then (calm.calm h.tidy h.nesting).keeps.nodes later

theorem watchTail_agree (h : Watched c nested watch found start base) (tail : Tail)
    {pushed : List Pushed} {around : List Enclosing}
    (here : scopes around = start ++ Pushed.names pushed)
    (among : ∀ s ∈ Tree.sitesTail around tail, s ∈ found) :
    Agree (Pushed.nodes pushed ++ base) (watchTail c nested watch pushed tail)
      (runTail c nested tail) := by
  match tail with
  | .unclosed => exact .refl _
  | .closed place =>
    exact (h.agree (among _ List.mem_cons_self) here (.refl _)).instruction place _
  | .or place call body tail =>
    have inside := watchTrees_agree h body here fun s member =>
      among s (List.mem_append_left _ (List.mem_cons_of_mem _ member))
    have after := watchTail_agree h tail here fun s member =>
      among s (List.mem_append_right _ member)
    have chosen (taken : Bool) : Agree (Pushed.nodes pushed ++ base)
        (if taken then watchTrees c nested watch pushed body
          else watchTail c nested watch pushed tail)
        (if taken then runTrees c nested body else runTail c nested tail) := by
      cases taken with
      | true => exact inside
      | false => exact after
    refine .instruction (h.agree (among _ (List.mem_append_left _ List.mem_cons_self)) here ?_)
      place _
    cases call with
    | none => exact .bind (.refl _) (calm_value true).keeps.nodes fun taken _ => chosen taken
    | some call =>
      exact .bind (.refl _) (calm_of_advances (test_advances c call)).keeps.nodes
        fun taken _ => chosen taken

theorem watchAlternates_agree (h : Watched c nested watch found start base) (alternates : Alternates)
    {pushed : List Pushed}
    {around : List Enclosing} (here : scopes around = start ++ Pushed.names pushed)
    (among : ∀ s ∈ Tree.sitesAlternates around alternates, s ∈ found) :
    Agree (Pushed.nodes pushed ++ base) (watchAlternates c nested watch pushed alternates)
      (runAlternates c nested alternates) := by
  match alternates with
  | .none => exact .refl _
  | .between place body close =>
    have inside := watchTrees_agree h body here fun s member =>
      among s (List.mem_append_left _ (List.mem_cons_of_mem _ member))
    refine .then (.refl _) (calm_of_advances count_advances).keeps.nodes ?_
    exact h.agree (among _ (List.mem_append_left _ List.mem_cons_self)) here inside

end

end

theorem always_inScope {c : Catalog} (tidy : c.Tidy) {t : Template}
    {code : List Enclosing × List Tree} (member : code ∈ t.codes) (depth : Nat) (ctx : Context) :
    Always c (runNested c depth) code.2
      (InScope t.sites (Enclosing.scopes code.1) ctx.nodes) ctx := by
  intro watch silent
  have watched : Watched c (runNested c depth) watch t.sites (Enclosing.scopes code.1) ctx.nodes :=
    ⟨tidy, calm_nested tidy depth, silent⟩
  have start : Enclosing.scopes code.1 = Enclosing.scopes code.1 ++ Pushed.names [] :=
    (List.append_nil _).symm
  exact watchTrees_agree watched code.2 start (fun _ => Template.mem_sites_of_codes member) ctx rfl

end Step

end JsonTemplate

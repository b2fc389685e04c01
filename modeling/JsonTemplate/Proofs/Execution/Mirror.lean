import JsonTemplate.Proofs.Execution.Frame
import JsonTemplate.Proofs.Execution.Step

namespace JsonTemplate

def Blind {α : Type} (f : Context → α) : Prop :=
  ∀ x y : Context, x.frames.bare.Resembles y.frames.bare →
    x.options.injectables = y.options.injectables → f x = f y

theorem Blind.of_resembles {α : Type} {f : Context → α} (blind : Blind f) {x y : Context}
    (seen : x.frames.Resembles y.frames) (same : x.options = y.options) : f x = f y :=
  blind x y seen.bare (congrArg RunOptions.injectables same)

namespace Context

variable {x y : Context}

theorem node_bare (h : x.frames.bare.Resembles y.frames.bare) : x.node = y.node := by
  have same := congrArg Frame.node h.top_bare
  exact same

theorem resolve_bare (h : x.frames.bare.Resembles y.frames.bare) : x.resolve = y.resolve := by
  funext name
  unfold resolve
  split
  · rw [h.lookup_bare]
  · exact node_bare h

theorem resolveSection_bare (h : x.frames.bare.Resembles y.frames.bare) (name : VarName) :
    x.resolveSection name = y.resolveSection name := by
  unfold resolveSection
  split
  · rename_i first rest
    have same := congrArg (fun f : Frame => (f.resolve first).follow rest) h.top_bare
    exact same
  · exact node_bare h

theorem resolve_eq (h : x.frames.Resembles y.frames) : x.resolve = y.resolve := resolve_bare h.bare

end Context

theorem Blind.of_resolve {α : Type} (f : (VarName → Node) → α) :
    Blind fun ctx => f ctx.resolve := fun _ _ seen _ => congrArg f (Context.resolve_bare seen)

theorem blind_node : Blind Context.node := fun _ _ seen _ => Context.node_bare seen

theorem blind_resolveSection (name : VarName) : Blind (Context.resolveSection · name) :=
  fun _ _ seen _ => Context.resolveSection_bare seen name

theorem blind_injectable (name : String) : Blind (Context.injectable · name) := by
  intro x y _ injected
  dsimp only [Context.injectable]
  rw [injected]

namespace Step

def scratchVars (ctx : Context) : Bindings Node := (ctx.frames.popped?.map Frame.vars).getD []

theorem blind_scratchVars : Blind scratchVars := by
  intro x y seen _
  have through (z : Context) : scratchVars z = (z.frames.bare.popped?.map Frame.vars).getD [] := by
    rw [scratchVars, FrameStack.bare_popped?, Option.map_map]
    rfl
  rw [through, through, seen.popped?]

def roundsOf (round : Bool → Step Unit) : Nat → List Json.Value → Step Unit
  | _, [] => pure ()
  | i, item :: rest => do
    modify (Context.updateTop (Frame.setIndex (some i)))
    let node := Node.value item
    within (if node.isNull then .missing else node) (round rest.isEmpty)
    roundsOf round (i + 1) rest

theorem rounds_eq (body between : Step Unit) (i : Nat) (items : List Json.Value) :
    rounds body between i items =
      roundsOf (fun last => do body; if !last then between) i items := by
  induction items generalizing i with
  | nil => rfl
  | cons item rest ih => rw [rounds, roundsOf, ih]

theorem roundsOf_related {R : Step Unit → Step Unit → Prop} (round round' : Bool → Step Unit)
    (done : R (pure ()) (pure ()))
    (numbered : ∀ i, R (modify (Context.updateTop (Frame.setIndex (some i))))
      (modify (Context.updateTop (Frame.setIndex (some i)))))
    (inside : ∀ last node, R (within node (round last)) (within node (round' last)))
    (joins : ∀ {s t k l : Step Unit}, R s t → R k l → R (do s; k) (do t; l))
    (i : Nat) (items : List Json.Value) : R (roundsOf round i items) (roundsOf round' i items) := by
  induction items generalizing i with
  | nil => exact done
  | cons item more ih =>
    exact joins (numbered i) (joins (inside more.isEmpty _) (ih (i + 1)))

/-- Two steps that differ only in how they execute the code of partials. The macros that they define
have the names given. -/
inductive Mirror (c : Catalog) (first second : Nested) (names : String → Prop) :
    {α : Type} → Step α → Step α → Prop where
  | value {α : Type} (a : α) : Mirror c first second names (pure a) (pure a)
  | bind {α β : Type} {s t : Step α} {k l : α → Step β} :
      Mirror c first second names s t → (∀ a, Mirror c first second names (k a) (l a)) →
        Mirror c first second names (s >>= k) (t >>= l)
  | look {α : Type} (f : Context → α) : Blind f → Mirror c first second names (read f) (read f)
  | count : Mirror c first second names count count
  | test (call : Call) : Mirror c first second names (c.test call) (c.test call)
  | write (text : String) :
      Mirror c first second names (modify (Context.write text)) (modify (Context.write text))
  | assign (vars : Bindings Node) :
      Mirror c first second names (modify (assignAll vars)) (modify (assignAll vars))
  | define (name : String) (body : List Tree) :
      (∀ n ∈ Context.namesOf (name, body), names n) →
        Mirror c first second names (modify (Context.setMacro name body))
          (modify (Context.setMacro name body))
  | noteProblems (program : Program) :
      Mirror c first second names (noteProblems program) (noteProblems program)
  | evaluate (program : Program) :
      Mirror c first second names (evaluate program) (evaluate program)
  | within {α : Type} (node : Node) {s t : Step α} :
      Mirror c first second names s t →
        Mirror c first second names (within node s) (within node t)
  | rounds (node : Node) {s t : Bool → Step Unit} (i : Nat) (items : List Json.Value) :
      (∀ last, Mirror c first second names (s last) (t last)) →
        Mirror c first second names (Step.within node (roundsOf s i items))
          (Step.within node (roundsOf t i items))
  | instruction (place : Text.Position) (source : List Char) {s t : Step Unit} :
      Mirror c first second names s t →
        Mirror c first second names (instruction place source s) (instruction place source t)
  | format (call : Call) (vars : Variables) :
      Mirror c first second names (applyFormatter c first call vars)
        (applyFormatter c second call vars)
  | includePartial (name : String) (output : Bool) :
      Mirror c first second names (runInclude c first name output)
        (runInclude c second name output)

theorem Mirror.symm {c : Catalog} {first second : Nested} {names : String → Prop} {α : Type}
    {s t : Step α} (h : Mirror c first second names s t) : Mirror c second first names t s := by
  induction h with
  | value a => exact .value a
  | bind _ _ ihs ihk => exact .bind ihs ihk
  | look f blind => exact .look f blind
  | count => exact .count
  | test call => exact .test call
  | write text => exact .write text
  | assign vars => exact .assign vars
  | define name body known => exact .define name body known
  | noteProblems program => exact .noteProblems program
  | evaluate program => exact .evaluate program
  | within node _ ih => exact .within node ih
  | rounds node i items _ ih => exact .rounds node i items ih
  | instruction place source _ ih => exact .instruction place source ih
  | format call vars => exact .format call vars
  | includePartial name output => exact .includePartial name output

/-- Two steps that are one instruction, or none. -/
inductive Single (c : Catalog) (first second : Nested) (names : String → Prop) :
    Step Unit → Step Unit → Prop where
  | nothing : Single c first second names (pure ()) (pure ())
  | instruction (place : Text.Position) (source : List Char) {s t : Step Unit} :
      Mirror c first second names s t →
        Single c first second names (instruction place source s) (instruction place source t)

section

variable (c : Catalog) (first second : Nested) (names : String → Prop)

theorem Single.mirror {c : Catalog} {first second : Nested} {names : String → Prop}
    {s t : Step Unit} (h : Single c first second names s t) : Mirror c first second names s t := by
  cases h with
  | nothing => exact .value ()
  | instruction place source inside => exact .instruction place source inside

theorem mirror_formatters (calls : List Call) (vars : Variables) :
    Mirror c first second names (applyFormatters c first calls vars)
      (applyFormatters c second calls vars) := by
  induction calls generalizing vars with
  | nil => exact .value vars
  | cons call rest ih => exact .bind .count fun _ => .bind (.format call vars) ih

theorem mirror_resolveAll (vars : List VarName) :
    Mirror c first second names (resolveAll vars) (resolveAll vars) :=
  .look _ (.of_resolve fun resolve => vars.map fun name => (name, resolve name))

theorem mirror_output (vars : List VarName) (calls : List Call) :
    Mirror c first second names (runOutput c first vars calls) (runOutput c second vars calls) := by
  refine .bind (mirror_resolveAll c first second names vars) fun resolved => .within _ ?_
  exact .bind (mirror_formatters c first second names calls resolved) fun _ => .write _

theorem mirror_bind (name : String) (vars : List VarName) (calls : List Call) :
    Mirror c first second names (runBind c first name vars calls)
      (runBind c second name vars calls) := by
  refine .bind (mirror_resolveAll c first second names vars) fun resolved => ?_
  exact .bind (mirror_formatters c first second names calls resolved)
    fun formatted => .assign [(name, formatted.first)]

theorem mirror_set (name : String) (f : Context → Node) (blind : Blind f) :
    Mirror c first second names (modify fun ctx => ctx.setVar name (f ctx))
      (modify fun ctx => ctx.setVar name (f ctx)) :=
  .bind (.look f blind) fun node => .assign [(name, node)]

theorem mirror_holds (program : Program) :
    Mirror c first second names (holds program) (holds program) := by
  refine .bind (.look _ blind_node) fun node => .bind (.within node (.evaluate program)) ?_
  exact fun _ => .value _

theorem within_look {α β γ : Type} (node : Node) (inside : Step α) (f : Context → β)
    (k : α → β → Step γ) :
    (do modify (Context.enter node)
        let a ← inside
        let b ← read f
        modify Context.pop
        k a b) =
      (do let found ← within node (do let a ← inside; let b ← read f; pure (a, b))
          k found.1 found.2) := by
  funext ctx
  simp only [within, Bind.bind, andThen, modify]
  rcases inside (ctx.enter node) with ⟨_ | a, after⟩ <;> rfl

theorem mirror_scratch {α β γ : Type} {node : Node} {s t : Step α} {f : Context → β}
    {k l : α → β → Step γ} (inside : Mirror c first second names s t) (blind : Blind f)
    (further : ∀ a b, Mirror c first second names (k a b) (l a b)) :
    Mirror c first second names
      (do modify (Context.enter node)
          let a ← s
          let b ← read f
          modify Context.pop
          k a b)
      (do modify (Context.enter node)
          let a ← t
          let b ← read f
          modify Context.pop
          l a b) := by
  rw [within_look, within_look]
  refine .bind (.within node ?_) fun found => further found.1 found.2
  exact .bind inside fun a => .bind (.look f blind) fun b => .value (a, b)

theorem mirror_maybe {b : Bool} {s s' t t' : Step Unit} (before : Mirror c first second names s s')
    (h : Mirror c first second names t t') :
    Mirror c first second names (if b then do s; t else t) (if b then do s'; t' else t') := by
  cases b with
  | false => exact h
  | true => exact .bind before fun _ => h

theorem mirror_eval (program : Program) (debug : Bool) :
    Mirror c first second names (runEval program debug) (runEval program debug) := by
  unfold runEval
  refine .bind (.noteProblems program) fun _ => ?_
  dsimp only
  refine mirror_maybe c first second names (.write _) ?_
  split
  · refine .bind (.look _ blind_node) fun node => ?_
    refine mirror_scratch c first second names (.evaluate program) blind_scratchVars
      fun outcome vars => ?_
    split
    · refine .bind (.assign vars) fun _ => ?_
      cases outcome.1 with
      | none => exact .value ()
      | some v => exact mirror_maybe c first second names (.write _) (.write _)
    · exact .value ()
  · exact .value ()

theorem mirror_leaf (l : Leaf) :
    Mirror c first second names (runLeaf c first l) (runLeaf c second l) := by
  cases l with
  | text content => exact .write content
  | output vars calls => exact mirror_output c first second names vars calls
  | bind name vars calls => exact mirror_bind c first second names name vars calls
  | object name bindings =>
    have blind : Blind (objectMembers bindings) := .of_resolve fun resolve =>
      Json.Value.ofMembers (bindings.filterMap fun b : Binding =>
        let node := resolve b.var
        if node.isMissing then none else some (b.name, node.toValue))
    refine mirror_set c first second names name _ fun x y seen injected => ?_
    rw [blind x y seen injected]
  | eval program debug => exact mirror_eval c first second names program debug
  | includePartial name args output => exact .includePartial name output
  | inject target path args =>
    exact mirror_set c first second names target _ (blind_injectable path)
  | brace left => exact .write _
  | blank kind => exact .write _
  | comment content multiline => exact .value ()

theorem mirror_entry (o : Opener) : Mirror c first second names (entry c o) (entry c o) := by
  cases o with
  | sectionOn var => exact .bind (.look _ (blind_resolveSection var)) fun _ => .value _
  | predicate call => exact .bind (.test call) fun _ => .value _
  | ifChain vars ops =>
    have blind := Blind.of_resolve fun resolve =>
      chainHolds (fun v => (resolve v).isTruthy) vars ops
    exact .bind (.look _ blind) fun _ => .value _
  | ifPredicate call => exact .bind (.test call) fun _ => .value _
  | ifExpression program =>
    exact .bind (mirror_holds c first second names program) fun _ => .value _

mutual

theorem single_tree (t : Tree) (known : ∀ n ∈ t.macroNames, names n) :
    Single c first second names (runTree c first t) (runTree c second t) := by
  match t with
  | .leaf place l => exact .instruction place _ (mirror_leaf c first second names l)
  | .block place o body tail =>
    have inside := mirror_trees body fun n member => known n (List.mem_append_left _ member)
    have after := single_tail tail fun n member => known n (List.mem_append_right _ member)
    refine .instruction place _ (.bind (mirror_entry c first second names o) fun entered => ?_)
    cases entered with
    | skip => exact after.mirror
    | inside => exact inside
    | on node => exact .within node inside
  | .repeated place var body alternates tail =>
    have inside := mirror_trees body fun n member =>
      known n (List.mem_append_left _ (List.mem_append_left _ member))
    have between := mirror_alternates alternates fun n member =>
      known n (List.mem_append_left _ (List.mem_append_right _ member))
    have after := single_tail tail fun n member => known n (List.mem_append_right _ member)
    refine .instruction place _ (.bind (.look _ (blind_resolveSection var)) fun node => ?_)
    cases sectionItems node with
    | nil => exact after.mirror
    | cons item rest =>
      dsimp only
      rw [rounds_eq, rounds_eq]
      refine .rounds node 0 (item :: rest) fun last => .bind inside fun _ => ?_
      cases last with
      | true => exact .value ()
      | false => exact between
  | .macroDef place name body close => exact .instruction place _ (.define name body known)

theorem mirror_trees (body : List Tree) (known : ∀ n ∈ Tree.macroNamesAll body, names n) :
    Mirror c first second names (runTrees c first body) (runTrees c second body) := by
  match body with
  | [] => exact .value ()
  | t :: rest =>
    have one := single_tree t fun n member => known n (List.mem_append_left _ member)
    have after := mirror_trees rest fun n member => known n (List.mem_append_right _ member)
    exact .bind one.mirror fun _ => after

theorem single_tail (tail : Tail) (known : ∀ n ∈ Tree.macroNamesTail tail, names n) :
    Single c first second names (runTail c first tail) (runTail c second tail) := by
  match tail with
  | .unclosed => exact .nothing
  | .closed place => exact .instruction place _ (.value ())
  | .or place call body tail =>
    have inside := mirror_trees body fun n member => known n (List.mem_append_left _ member)
    have after := single_tail tail fun n member => known n (List.mem_append_right _ member)
    have chosen (taken : Bool) : Mirror c first second names
        (if taken then runTrees c first body else runTail c first tail)
        (if taken then runTrees c second body else runTail c second tail) := by
      cases taken with
      | true => exact inside
      | false => exact after.mirror
    refine .instruction place _ ?_
    cases call with
    | none => exact .bind (.value true) chosen
    | some call => exact .bind (.test call) chosen

theorem mirror_alternates (alternates : Alternates)
    (known : ∀ n ∈ Tree.macroNamesAlternates alternates, names n) :
    Mirror c first second names (runAlternates c first alternates)
      (runAlternates c second alternates) := by
  match alternates with
  | .none => exact .value ()
  | .between place body implied => exact .bind .count fun _ => mirror_trees body known

end

end

end Step

end JsonTemplate

import JsonTemplate.Proofs.Execution.Neutral

namespace JsonTemplate

namespace Context

/-- All code that a state holds or can compile has its names among those given. -/
structure Known (c : Catalog) (names : List String) (ctx : Context) : Prop where
  macros : ∀ f ∈ ctx.frames.toList, ∀ code ∈ f.macros, namesOf code ⊆ names
  compiled : ∀ code ∈ ctx.compiled, namesOf code ⊆ names
  partials : ∀ p ∈ ctx.options.partials, partialNames c ctx.options p ⊆ names

section

variable {c : Catalog} {names : List String} {ctx : Context}

theorem Known.knownNames (c : Catalog) (ctx : Context) (body : List Tree) :
    ctx.Known c (ctx.knownNames c body) where
  macros f inFrames code inMacros n member := by
    rw [Context.knownNames, List.mem_eraseDups]
    refine List.mem_append_left _ (List.mem_append_left _ (List.mem_append_right _ ?_))
    exact List.mem_flatMap.mpr ⟨f, inFrames, List.mem_flatMap.mpr ⟨code, inMacros, member⟩⟩
  compiled code inCompiled n member := by
    rw [Context.knownNames, List.mem_eraseDups]
    refine List.mem_append_left _ (List.mem_append_right _ ?_)
    exact List.mem_flatMap.mpr ⟨code, inCompiled, member⟩
  partials p inPartials n member := by
    rw [Context.knownNames, List.mem_eraseDups]
    exact List.mem_append_right _ (List.mem_flatMap.mpr ⟨p, inPartials, member⟩)

theorem macroNames_known (c : Catalog) (ctx : Context) (body : List Tree) :
    Tree.macroNamesAll body ⊆ ctx.knownNames c body := by
  intro n member
  rw [Context.knownNames, List.mem_eraseDups]
  exact List.mem_append_left _ (List.mem_append_left _ (List.mem_append_left _ member))

theorem Known.push (h : ctx.Known c names) {f : Frame} (none' : f.macros = []) :
    (ctx.push f).Known c names where
  macros g member code inMacros := by
    rcases List.mem_cons.mp member with rfl | member
    · rw [none'] at inMacros
      cases inMacros
    · exact h.macros g member code inMacros
  compiled := h.compiled
  partials := h.partials

theorem Known.drop (h : ctx.Known c names) (n : Nat) :
    Context.Known c names
      { ctx with frames := { ctx.frames with inner := ctx.frames.inner.drop n } } where
  macros f member code inMacros := by
    refine h.macros f ?_ code inMacros
    rcases List.mem_append.mp member with inner | root
    · exact List.mem_append_left _ (List.mem_of_mem_drop inner)
    · exact List.mem_append_right _ root
  compiled := h.compiled
  partials := h.partials

theorem Known.pop (h : ctx.Known c names) : ctx.pop.Known c names := h.drop 1

theorem Known.cut (h : ctx.Known c names) (depth : Nat) : (ctx.cut depth).Known c names := h.drop _

theorem Known.updateTop (h : ctx.Known c names) {change : Frame → Frame}
    (change_known : ∀ f : Frame, ∀ code ∈ (change f).macros,
      code ∈ f.macros ∨ namesOf code ⊆ names) : (ctx.updateTop change).Known c names where
  macros f member code inMacros := by
    have top : ctx.frames.top ∈ ctx.frames.toList := by
      rw [FrameStack.toList_eq]
      exact List.mem_cons_self
    rw [Context.updateTop, FrameStack.toList_updateTop] at member
    rcases List.mem_cons.mp member with rfl | below
    · rcases change_known ctx.frames.top code inMacros with before | known
      · exact h.macros _ top code before
      · exact known
    · refine h.macros f ?_ code inMacros
      rw [FrameStack.toList_eq]
      exact List.mem_cons_of_mem _ below
  compiled := h.compiled
  partials := h.partials

theorem Known.of_advances {after : Context} (h : ctx.Known c names) (moved : ctx.Advances after) :
    after.Known c names := by
  induction moved with
  | refl => exact h
  | note _ _ ih | write _ _ ih | count _ _ ih | log _ _ ih =>
    exact ⟨ih.macros, ih.compiled, ih.partials⟩
  | setVar name node _ ih => exact ih.updateTop fun f code member => .inl member

theorem Known.setMacro (h : ctx.Known c names) {name : String} {body : List Tree}
    (known : namesOf (name, body) ⊆ names) : (ctx.setMacro name body).Known c names := by
  refine h.updateTop fun f code member => ?_
  rcases List.mem_cons.mp member with rfl | before
  · exact .inr known
  · exact .inl (List.mem_of_mem_filter before)

theorem Known.finds (h : ctx.Known c names) {name : String}
    {found : Except Diagnostic (Option (List Tree)) × Context} (finds : ctx.Finds c name found) :
    found.2.Known c names ∧
      ∀ body, found.1 = .ok (some body) → namesOf (name, body) ⊆ names := by
  cases finds with
  | defined body found =>
    refine ⟨h, fun _ same => ?_⟩
    cases same
    obtain ⟨f, member, bound⟩ := List.exists_of_findSome?_eq_some found
    exact h.macros f member _ (Bindings.mem_of_get? bound)
  | kept body found =>
    refine ⟨h, fun _ same => ?_⟩
    cases same
    exact h.compiled _ (Bindings.mem_of_get? found)
  | missing => exact ⟨h, nofun⟩
  | faulty => exact ⟨⟨h.macros, h.compiled, h.partials⟩, nofun⟩
  | @compiled source compiled listed outcome =>
    have names_eq : partialNames c ctx.options (name, source) =
        namesOf (name, compiled.template.body) := by
      rw [partialNames, outcome]
    have known : namesOf (name, compiled.template.body) ⊆ names := by
      rw [← names_eq]
      exact h.partials _ (Bindings.mem_of_get? listed)
    have once : ctx.compiledOnce.Known c names := ⟨h.macros, h.compiled, h.partials⟩
    have noted := once.of_advances (noteFaulty_advances name compiled.problems _)
    refine ⟨⟨noted.macros, fun code member => ?_, noted.partials⟩, fun _ same => ?_⟩
    · rcases List.mem_cons.mp member with rfl | before
      · exact known
      · exact noted.compiled code (List.mem_of_mem_filter before)
    · cases same
      exact known

end

def idle (names active : List String) : Nat := (names.filter (!active.contains ·)).length

theorem idle_enter {names active : List String} {name : String} (member : name ∈ names)
    (h : active.contains name = false) : idle names (name :: active) < idle names active := by
  have fewer : names.filter (!(name :: active).contains ·) =
      (names.filter (!active.contains ·)).filter (· ≠ name) := by
    rw [List.filter_filter]
    congr 1
    funext n
    simp [Bool.not_or]
  rw [idle, idle, fewer, List.length_filter_lt_length_iff_exists]
  exact ⟨name, List.mem_filter.mpr ⟨member, by rw [h]; rfl⟩, by simp⟩

end Context

namespace Step

variable {α β : Type} {c : Catalog} {names : List String}

def Secures (c : Catalog) (names : List String) (s : Step α) : Prop :=
  ∀ ctx : Context, ctx.Known c names → (s ctx).2.Known c names

def Preserves (c : Catalog) (names : List String) (s : Step α) : Prop :=
  ∀ ctx : Context, ctx.Known c names → (rest ctx.depth (s ctx)).Known c names

section

variable {s : Step α} {k : α → Step β}

theorem Secures.preserves (h : Secures c names s) : Preserves c names s := by
  intro ctx known
  have now := h ctx known
  generalize s ctx = outcome at now
  rcases outcome with ⟨f | a, after⟩
  · exact now.cut ctx.depth
  · exact now

theorem Secures.bind (first : Secures c names s) (next : ∀ a, Secures c names (k a)) :
    Secures c names (s >>= k) := by
  intro ctx known
  have now := first ctx known
  rcases outcome : s ctx with ⟨f | a, middle⟩
  · rw [outcome] at now
    rw [bind_error outcome]
    exact now
  · rw [outcome] at now
    rw [bind_ok outcome]
    exact next a middle now

theorem secures_of_advances (h : ∀ ctx : Context, ctx.Advances (s ctx).2) : Secures c names s :=
  fun ctx known => known.of_advances (h ctx)

theorem secures_value (a : α) : Secures c names (pure a : Step α) := fun _ known => known

theorem secures_read (f : Context → α) : Secures c names (read f) := fun _ known => known

theorem Preserves.bind (kept : Keeps Context.KeepsBelow s) (first : Preserves c names s)
    (next : ∀ a, Preserves c names (k a)) : Preserves c names (s >>= k) := by
  intro ctx known
  have steady := (kept ctx).depth
  have now := first ctx known
  rcases outcome : s ctx with ⟨f | a, middle⟩
  · rw [outcome] at now
    rw [bind_error outcome]
    exact now
  · rw [outcome] at now steady
    rw [bind_ok outcome, ← steady]
    exact next a middle now

theorem Preserves.within (h : Preserves c names s) (node : Node) :
    Preserves c names (within node s) := by
  intro ctx known
  have inside := h (ctx.enter node) (known.push rfl)
  rcases outcome : s (ctx.enter node) with ⟨f | a, after⟩
  · rw [outcome] at inside
    rw [within_error outcome]
    -- The scope is not removed, so the cut of the instruction around it takes it away as well.
    have twice : (after.cut (ctx.depth + 1)).cut ctx.depth = after.cut ctx.depth := by
      rw [Context.cut, Context.cut, Context.cut, FrameStack.truncate_succ_truncate]
    rw [rest, ← twice]
    exact Context.Known.cut inside ctx.depth
  · rw [outcome] at inside
    rw [within_ok outcome]
    exact inside.pop

theorem Preserves.rounds {round : Bool → Step Unit}
    (kept : ∀ last, Keeps Context.Undisturbed (round last))
    (h : ∀ last, Preserves c names (round last)) (i : Nat) (items : List Json.Value) :
    Preserves c names (roundsOf round i items) := by
  induction items generalizing i with
  | nil => exact (secures_value ()).preserves
  | cons item more ih =>
    refine .bind (fun ctx => .updateTop _ ctx) ?_ fun _ => ?_
    · exact Secures.preserves fun ctx known => known.updateTop fun f code member => .inl member
    · have within_kept := (kept more.isEmpty).below.within
      exact .bind (within_kept _).below ((h more.isEmpty).within _) fun _ => ih (i + 1)

theorem Preserves.instruction {s : Step Unit} (h : Preserves c names s) (place : Text.Position)
    (source : List Char) : Secures c names (instruction place source s) := by
  intro ctx known
  have counted : Preserves c names (do count; s) :=
    .bind (calm_of_advances count_advances).keeps.below
      (secures_of_advances count_advances).preserves fun _ => h
  have now := counted { ctx with place } ⟨known.macros, known.compiled, known.partials⟩
  rcases outcome : (do count; s : Step Unit) { ctx with place } with ⟨f | u, after⟩
  · rw [outcome] at now
    have told := Context.Known.of_advances now (recover_advances place source ctx.depth f after)
    rw [instruction_error outcome]
    exact ⟨told.macros, told.compiled, told.partials⟩
  · rw [outcome] at now
    rw [instruction_ok outcome]
    exact ⟨now.macros, now.compiled, now.partials⟩

theorem secures_obtainPartial (missing faulty : RunFault) (name : String) :
    Secures c names (obtainPartial c missing faulty name) := fun ctx known =>
  (known.finds (ctx.findPartial_finds c name)).1.of_advances
    (obtainPartial_advances c missing faulty name ctx)

theorem obtainPartial_known {missing faulty : RunFault} {name : String} {body : List Tree}
    {ctx after : Context} (known : ctx.Known c names)
    (h : obtainPartial c missing faulty name ctx = (.ok (some body), after)) :
    Context.namesOf (name, body) ⊆ names := by
  have found := (known.finds (ctx.findPartial_finds c name)).2
  rw [obtainPartial_eq] at h
  rcases outcome : ctx.findPartial c name with ⟨d | _ | other, middle⟩
  · rw [outcome] at h
    cases h
  · rw [outcome] at h
    dsimp only at h
    cases refused : (refuse ((middle.problem missing).withName name) middle).1 with
    | error f =>
      rw [refused] at h
      cases h
    | ok u =>
      rw [refused] at h
      cases h
  · rw [outcome] at h found
    cases h
    exact found body rfl

theorem Preserves.whole {s : Step Unit} (h : Preserves c names s) : Secures c names (whole s) :=
  fun ctx known => h.instruction ctx.place [] ctx known

theorem Secures.obtained {missing faulty : RunFault} {name : String}
    {k : Option (List Tree) → Step β} (none' : Secures c names (k none))
    (some' : ∀ body, Context.namesOf (name, body) ⊆ names → Secures c names (k (some body))) :
    Secures c names (obtainPartial c missing faulty name >>= k) := by
  intro ctx known
  have now := secures_obtainPartial missing faulty name ctx known
  rcases outcome : obtainPartial c missing faulty name ctx with ⟨f | _ | body, after⟩
  · rw [outcome] at now
    rw [bind_error outcome]
    exact now
  · rw [outcome] at now
    rw [bind_ok outcome]
    exact none' after now
  · rw [outcome] at now
    rw [bind_ok outcome]
    exact some' body (obtainPartial_known known outcome) after now

theorem Secures.asPartial (h : Secures c names s) (name : String) :
    Secures c names (asPartial name s) := by
  intro ctx known
  cases busy : ctx.active.contains name with
  | true =>
    rw [asPartial_refused busy]
    exact known.of_advances (refuse_advances _ ctx)
  | false =>
    have inside := h { ctx with active := name :: ctx.active }
      ⟨known.macros, known.compiled, known.partials⟩
    rw [asPartial_entered busy]
    exact ⟨inside.macros, inside.compiled, inside.partials⟩

theorem Secures.capture {s : Step Unit} (h : Secures c names s) {frame : Frame}
    (none' : frame.macros = []) : Secures c names (capture frame s) := by
  intro ctx known
  have pushed := known.push none'
  have inside := h { ctx.push frame with output := "" }
    ⟨pushed.macros, pushed.compiled, pushed.partials⟩
  have restored := inside.cut ctx.depth
  exact ⟨restored.macros, restored.compiled, restored.partials⟩

theorem Secures.silent {s : Step Unit} (h : Secures c names s) : Secures c names (silent s) := by
  intro ctx known
  have inside := h { ctx with output := "" } ⟨known.macros, known.compiled, known.partials⟩
  exact ⟨inside.macros, inside.compiled, inside.partials⟩

end

def NestedSecures (c : Catalog) (names : List String) (nested : Nested) : Prop :=
  ∀ name body, Context.namesOf (name, body) ⊆ names → Secures c names (nested name body)

section

variable {nested : Nested}

theorem partialFrame_macros (values : List String) (node : Node) :
    (partialFrame values node).macros = [] := by
  unfold partialFrame
  dsimp only
  split <;> rfl

theorem preserves_step {f : Arguments → Variables → Step Variables} (tidy : (Transform.step f).Tidy)
    (args : Arguments) (vars : Variables) : Preserves c names (f args vars) := by
  intro ctx known
  rcases tidy args vars ctx with ⟨formatted, outcome⟩ | ⟨failure, frames, text, outcome⟩
  · rw [outcome]
    exact known
  · rw [outcome]
    have restored := FrameStack.truncate_foldr_push frames ctx.frames
    refine ⟨fun f member => ?_, known.compiled, known.partials⟩
    change f ∈
      ((frames.foldr FrameStack.push ctx.frames).truncate ctx.frames.depth).toList at member
    rw [restored] at member
    exact known.macros f member

theorem preserves_formatter (tidy : c.Tidy)
    (secure : NestedSecures c names nested)
    (call : Call) (vars : Variables) : Preserves c names (applyFormatter c nested call vars) := by
  unfold applyFormatter
  cases known : c.formatter? call.name with
  | none => exact (secures_value vars).preserves
  | some f =>
    have neat := tidy call.name f known
    rw [Option.map_some]
    cases transform : f.transform with
    | compute g =>
      refine Secures.preserves fun ctx before => ?_
      dsimp only
      rw [compute_eq]
      exact before
    | applyPartial =>
      refine Secures.preserves (Secures.bind ?_ fun node => secures_value _)
      refine .obtained (secures_value _) fun body inside => ?_
      have nested := (secure call.args.first body inside).preserves.whole
      refine ((nested.capture (partialFrame_macros _ _)).asPartial _).bind fun text => ?_
      cases text <;> exact secures_value _
    | step g =>
      rw [transform] at neat
      exact preserves_step neat call.args vars

theorem secures_include
    (secure : NestedSecures c names nested)
    (name : String) (output : Bool) : Secures c names (runInclude c nested name output) := by
  refine (secures_read _).bind fun includes => ?_
  split
  · refine .obtained (secures_value ()) fun body known => ?_
    have inside : Secures c names (do let _ ← asPartial name (nested name body)) :=
      ((secure name body known).asPartial name).bind fun _ => secures_value ()
    cases output with
    | true => exact inside
    | false => exact inside.silent
  · exact secures_value ()

theorem Mirror.preserves {second : Nested} (tidy : c.Tidy)
    (calm : ∀ name body, Calm (nested name body))
    (secure : NestedSecures c names nested)
    {s t : Step α} (h : Mirror c nested second (· ∈ names) s t) : Preserves c names s := by
  induction h with
  | value a => exact (secures_value a).preserves
  | bind first _ ihs ihk => exact .bind (first.keeps tidy calm).below ihs ihk
  | look f _ => exact (secures_read f).preserves
  | count => exact (secures_of_advances count_advances).preserves
  | test call => exact (secures_of_advances (test_advances c call)).preserves
  | write text => exact (secures_of_advances fun _ => .write text .refl).preserves
  | assign vars => exact (secures_of_advances (assignAll_advances vars)).preserves
  | define name body known => exact Secures.preserves fun ctx before => before.setMacro known
  | noteProblems program => exact (secures_of_advances (noteProblems_advances program)).preserves
  | evaluate program => exact (secures_of_advances (evaluate_advances program)).preserves
  | within node _ ih => exact ih.within node
  | rounds node i items mirror ih =>
    exact (Preserves.rounds (fun last => (mirror last).keeps tidy calm) ih i items).within node
  | instruction place source _ ih => exact (ih.instruction place source).preserves
  | format call vars => exact preserves_formatter tidy secure call vars
  | includePartial name output => exact (secures_include secure name output).preserves

theorem Single.secures {second : Nested} (tidy : c.Tidy)
    (calm : ∀ name body, Calm (nested name body))
    (secure : NestedSecures c names nested)
    {s t : Step Unit} (h : Single c nested second (· ∈ names) s t) : Secures c names s := by
  cases h with
  | nothing => exact secures_value ()
  | instruction place source inside =>
    exact (inside.preserves tidy calm secure).instruction place source

theorem secures_nested (tidy : c.Tidy) (depth : Nat) (name : String) (body : List Tree)
    (known : Context.namesOf (name, body) ⊆ names) :
    Secures c names (runNested c depth name body) := by
  induction depth generalizing name body with
  | zero => exact fun ctx before => before.of_advances (refuse_advances _ ctx)
  | succ depth ih =>
    have inside : Tree.macroNamesAll body ⊆ names := fun n member =>
      known (List.mem_cons_of_mem _ member)
    change Secures c names (runTrees c (runNested c depth) body)
    clear known
    induction body with
    | nil => exact secures_value ()
    | cons t rest ihb =>
      have one := single_tree c (runNested c depth) (runNested c depth) (· ∈ names) t
        fun n member => inside (List.mem_append_left _ member)
      exact (one.secures tidy (calm_nested tidy depth) ih).bind fun _ =>
        ihb fun n member => inside (List.mem_append_right _ member)

end

def Agrees (c : Catalog) (names : List String) (n : Nat) (s t : Step α) : Prop :=
  ∀ ctx : Context, ctx.Known c names → Context.idle names ctx.active ≤ n → s ctx = t ctx

def Meets (c : Catalog) (names : List String) (n : Nat) (first second : Nested) : Prop :=
  ∀ m < n, ∀ name body, Context.namesOf (name, body) ⊆ names →
    Agrees c names m (first name body) (second name body)

section

variable {n : Nat} {s t : Step α} {k l : α → Step β}

theorem Agrees.refl (s : Step α) : Agrees c names n s s := fun _ _ _ => rfl

theorem Agrees.bind (kept : Keeps Context.KeepsBelow s) (secure : Preserves c names s)
    (first : Agrees c names n s t) (next : ∀ a, Agrees c names n (k a) (l a)) :
    Agrees c names n (s >>= k) (t >>= l) := by
  intro ctx known few
  have same := first ctx known few
  have steady := (kept ctx).active
  have now := secure ctx known
  rcases outcome : s ctx with ⟨f | a, middle⟩
  · rw [outcome] at same
    rw [bind_error outcome, bind_error same.symm]
  · rw [outcome] at same steady now
    rw [bind_ok outcome, bind_ok same.symm]
    refine next a middle now ?_
    rw [show middle.active = ctx.active from steady]
    exact few

theorem Agrees.andThen (h : Agrees c names n s t) (k : α → Step β) :
    Agrees c names n (s >>= k) (t >>= k) := by
  intro ctx known few
  simp only [Bind.bind, Step.andThen, h ctx known few]

theorem Agrees.within (h : Agrees c names n s t) (node : Node) :
    Agrees c names n (within node s) (within node t) := by
  intro ctx known few
  have same := h (ctx.enter node) (known.push rfl) few
  rcases outcome : s (ctx.enter node) with ⟨f | a, after⟩
  · rw [outcome] at same
    rw [within_error outcome, within_error same.symm]
  · rw [outcome] at same
    rw [within_ok outcome, within_ok same.symm]

theorem Agrees.instruction {s t : Step Unit} (h : Agrees c names n s t) (place : Text.Position)
    (source : List Char) :
    Agrees c names n (instruction place source s) (instruction place source t) := by
  have counted : Agrees c names n (do count; s) (do count; t) :=
    .bind (calm_of_advances count_advances).keeps.below
      (secures_of_advances count_advances).preserves (.refl count) fun _ => h
  intro ctx known few
  have same := counted { ctx with place } ⟨known.macros, known.compiled, known.partials⟩ few
  simp only [Step.instruction, located, thenAlways, rescue, same]

theorem Agrees.whole {s t : Step Unit} (h : Agrees c names n s t) :
    Agrees c names n (whole s) (whole t) :=
  fun ctx known few => h.instruction ctx.place [] ctx known few

theorem Agrees.asPartial {name : String} (member : name ∈ names)
    (h : ∀ m < n, Agrees c names m s t) :
    Agrees c names n (asPartial name s) (asPartial name t) := by
  intro ctx known few
  cases busy : ctx.active.contains name with
  | true => rw [asPartial_refused busy, asPartial_refused busy]
  | false =>
    have fewer := Context.idle_enter member busy
    have same := h _ (Nat.lt_of_lt_of_le fewer few) { ctx with active := name :: ctx.active }
      ⟨known.macros, known.compiled, known.partials⟩ (Nat.le_refl _)
    rw [asPartial_entered busy, asPartial_entered busy, same]

theorem Agrees.capture {s t : Step Unit} (h : Agrees c names n s t) {frame : Frame}
    (none' : frame.macros = []) : Agrees c names n (capture frame s) (capture frame t) := by
  intro ctx known few
  have pushed := known.push none'
  have same := h { ctx.push frame with output := "" }
    ⟨pushed.macros, pushed.compiled, pushed.partials⟩ few
  rw [Step.capture, Step.capture, same]

theorem Agrees.silent {s t : Step Unit} (h : Agrees c names n s t) :
    Agrees c names n (silent s) (silent t) := by
  intro ctx known few
  have same := h { ctx with output := "" } ⟨known.macros, known.compiled, known.partials⟩ few
  rw [Step.silent, Step.silent, same]

theorem Agrees.obtained {missing faulty : RunFault} {name : String}
    {k l : Option (List Tree) → Step β} (none' : Agrees c names n (k none) (l none))
    (some' : ∀ body, Context.namesOf (name, body) ⊆ names →
      Agrees c names n (k (some body)) (l (some body))) :
    Agrees c names n (obtainPartial c missing faulty name >>= k)
      (obtainPartial c missing faulty name >>= l) := by
  intro ctx known few
  have now := secures_obtainPartial missing faulty name ctx known
  have steady := (calm_obtainPartial c missing faulty name ctx).active
  rcases outcome : obtainPartial c missing faulty name ctx with ⟨f | _ | body, after⟩
  · rw [bind_error outcome, bind_error outcome]
  all_goals
    rw [outcome] at now steady
    have few' : Context.idle names after.active ≤ n := by
      rw [show after.active = ctx.active from steady]
      exact few
    rw [bind_ok outcome, bind_ok outcome]
  · exact none' after now few'
  · exact some' body (obtainPartial_known known outcome) after now few'

end

section

variable {n : Nat} {first second : Nested}

theorem agrees_formatter (meets : Meets c names n first second) (call : Call) (vars : Variables) :
    Agrees c names n (applyFormatter c first call vars) (applyFormatter c second call vars) := by
  unfold applyFormatter
  rcases (c.formatter? call.name).map Formatter.transform with _ | f | _ | f
  · exact .refl _
  · exact .refl _
  · have applied : Agrees c names n (applyPartial c first call.args vars.first)
        (applyPartial c second call.args vars.first) := by
      refine .obtained (.refl _) fun body known => ?_
      have inside : ∀ m < n, Agrees c names m (capture _ (whole (first call.args.first body)))
          (capture _ (whole (second call.args.first body))) := fun m fewer =>
        (meets m fewer call.args.first body known).whole.capture
          (partialFrame_macros (call.args.values.drop 1) vars.first)
      exact (Agrees.asPartial (known List.mem_cons_self) inside).andThen _
    exact applied.andThen _
  · exact .refl _

theorem agrees_include (meets : Meets c names n first second) (name : String) (output : Bool) :
    Agrees c names n (runInclude c first name output) (runInclude c second name output) := by
  refine .bind (calm_read _).keeps.below (secures_read _).preserves (.refl _) fun includes => ?_
  split
  · refine .obtained (.refl _) fun body known => ?_
    have inside : Agrees c names n (do let _ ← asPartial name (first name body))
        (do let _ ← asPartial name (second name body)) :=
      (Agrees.asPartial (known List.mem_cons_self) fun m fewer =>
        meets m fewer name body known).andThen _
    cases output with
    | true => exact inside
    | false => exact inside.silent
  · exact .refl _

theorem Agrees.rounds {round round' : Bool → Step Unit}
    (kept : ∀ last, Keeps Context.Undisturbed (round last))
    (secure : ∀ last, Preserves c names (round last))
    (same : ∀ last, Agrees c names n (round last) (round' last)) (i : Nat)
    (items : List Json.Value) :
    Agrees c names n (roundsOf round i items) (roundsOf round' i items) := by
  induction items generalizing i with
  | nil => exact .refl _
  | cons item more ih =>
    refine .bind (fun ctx => .updateTop _ ctx) ?_ (.refl _) fun _ => ?_
    · exact Secures.preserves fun ctx known => known.updateTop fun f code member => .inl member
    · have within_kept := (kept more.isEmpty).below.within
      exact .bind (within_kept _).below ((secure more.isEmpty).within _)
        ((same more.isEmpty).within _) fun _ => ih (i + 1)

theorem Mirror.agrees (tidy : c.Tidy) (calm : ∀ name body, Calm (first name body))
    (secure : NestedSecures c names first)
    (meets : Meets c names n first second) {s t : Step α}
    (h : Mirror c first second (· ∈ names) s t) : Agrees c names n s t := by
  induction h with
  | bind mirror _ ihs ihk =>
    exact .bind (mirror.keeps tidy calm).below (mirror.preserves tidy calm secure) ihs ihk
  | within node _ ih => exact ih.within node
  | rounds node i items mirror ih =>
    have kept last := (mirror last).keeps tidy calm
    have steady last := (mirror last).preserves tidy calm secure
    exact (Agrees.rounds kept steady ih i items).within node
  | instruction place source _ ih => exact ih.instruction place source
  | format call vars => exact agrees_formatter meets call vars
  | includePartial name output => exact agrees_include meets name output
  | _ => exact .refl _

end

/-- Executes the code of partials that are nested up to a depth. What becomes of deeper ones is left
open. -/
def nestedOver (c : Catalog) (deeper : Nested) : Nat → Nested
  | 0 => deeper
  | depth + 1 => fun _ body => runTrees c (nestedOver c deeper depth) body

theorem runNested_eq_over (c : Catalog) (depth : Nat) :
    runNested c depth = nestedOver c (runNested c 0) depth := by
  induction depth with
  | zero => rfl
  | succ depth ih =>
    funext name body
    rw [runNested, nestedOver, ih]

theorem runNested_meets (tidy : c.Tidy) (deeper : Nested) {n depth more : Nat} (enough : n ≤ depth)
    (enough' : n ≤ more) : Meets c names n (runNested c depth) (nestedOver c deeper more) := by
  -- On the number of idle names: a partial that is entered takes one of them and one level.
  induction n generalizing depth more with
  | zero => nofun
  | succ n ih =>
    obtain ⟨depth, rfl⟩ := Nat.exists_eq_succ_of_ne_zero (Nat.ne_zero_of_lt enough)
    obtain ⟨more, rfl⟩ := Nat.exists_eq_succ_of_ne_zero (Nat.ne_zero_of_lt enough')
    intro m fewer name body known ctx before few
    have meets := ih (Nat.le_of_succ_le_succ enough) (Nat.le_of_succ_le_succ enough')
    have mirror := mirror_trees c (runNested c depth) (nestedOver c deeper more) (· ∈ names) body
      fun n member => known (List.mem_cons_of_mem _ member)
    exact mirror.agrees tidy (calm_nested tidy depth) (secures_nested tidy depth) meets ctx before
      (Nat.le_trans few (Nat.le_of_lt_succ fewer))

theorem agrees_trees (tidy : c.Tidy) (deeper : Nested) {body : List Tree}
    (known : Tree.macroNamesAll body ⊆ names) {n depth more : Nat} (enough : n ≤ depth)
    (enough' : n ≤ more) :
    Agrees c names n (runTrees c (runNested c depth) body)
      (runTrees c (nestedOver c deeper more) body) := by
  have mirror := mirror_trees c (runNested c depth) (nestedOver c deeper more) (· ∈ names) body known
  exact mirror.agrees tidy (calm_nested tidy depth) (secures_nested tidy depth)
    (runNested_meets tidy deeper enough enough')

theorem idle_le_nestingLimit (c : Catalog) (ctx : Context) (body : List Tree) :
    Context.idle (ctx.knownNames c body) ctx.active ≤ ctx.nestingLimit c body :=
  List.length_filter_le _ _

theorem runBody_eq_over (tidy : c.Tidy) (body : List Tree) (deeper : Nested) {ctx : Context}
    {depth : Nat} (enough : ctx.nestingLimit c body ≤ depth) :
    whole (runTrees c (nestedOver c deeper depth) body) ctx = runBody c body ctx := by
  have agrees := agrees_trees tidy deeper (ctx.macroNames_known c body)
    (Nat.le_refl (ctx.nestingLimit c body)) enough
  exact (agrees.whole ctx (.knownNames c ctx body) (idle_le_nestingLimit c ctx body)).symm

theorem runBody_eq (tidy : c.Tidy) (body : List Tree) {ctx : Context} {depth : Nat}
    (enough : ctx.nestingLimit c body ≤ depth) :
    whole (runTrees c (runNested c depth) body) ctx = runBody c body ctx := by
  rw [runNested_eq_over]
  exact runBody_eq_over tidy body (runNested c 0) enough

end Step

end JsonTemplate

import JsonTemplate.Proofs.Assembly.Nesting

namespace JsonTemplate

open JsonTemplate.Text

namespace Grammar

mutual

inductive Items : List Instruction → Prop where
  | nil : Items []
  | cons {item rest : List Instruction} : Item item → Items rest → Items (item ++ rest)

inductive Item : List Instruction → Prop where
  | leaf (place : Position) (l : Leaf) : Item [⟨place, .leaf l⟩]
  | block (place stop : Position) (o : Opener) {body branches : List Instruction} :
      Items body → Branches branches →
      Item (⟨place, .opening o⟩ :: (body ++ branches ++ [⟨stop, .close⟩]))
  | repeated (place stop : Position) (var : VarName) {body branches : List Instruction} :
      Items body → Branches branches →
      Item (⟨place, .repeated var⟩ :: (body ++ branches ++ [⟨stop, .close⟩]))
  | alternating (place middle stop : Position) (var : VarName)
      {rounds between branches : List Instruction} :
      Items rounds → Items between → Branches branches →
      Item (⟨place, .repeated var⟩ ::
        (rounds ++ ⟨middle, .alternates⟩ :: (between ++ branches) ++ [⟨stop, .close⟩]))
  | macroDef (place stop : Position) (name : String) {body : List Instruction} :
      Items body → Item (⟨place, .macroStart name⟩ :: (body ++ [⟨stop, .close⟩]))

/-- Branches with tests, and at the end perhaps one without. -/
inductive Branches : List Instruction → Prop where
  | nil : Branches []
  | test (place : Position) (call : Call) {body rest : List Instruction} :
      Items body → Branches rest → Branches (⟨place, .or (some call)⟩ :: (body ++ rest))
  | last (place : Position) {body : List Instruction} :
      Items body → Branches (⟨place, .or none⟩ :: body)

end

/-- The lists that are templates: items and the end of the source. -/
inductive Derives : List Instruction → Prop where
  | template (stop : Position) {items : List Instruction} :
      Items items → Derives (items ++ [⟨stop, .eof⟩])

/-- Whether a list starts a template. -/
def Viable (front : List Instruction) : Prop := ∃ back, Derives (front ++ back)

/-- What may stand in a block of a kind before its closing tag. -/
def Inside : BlockKind → List Instruction → Prop
  | .branching, inside | .between, inside =>
    ∃ body branches, inside = body ++ branches ∧ Items body ∧ Branches branches
  | .lastBranch, inside | .macroBody, inside => Items inside
  | .rounds, inside =>
    (∃ body branches, inside = body ++ branches ∧ Items body ∧ Branches branches) ∨
      ∃ rounds middle between branches,
        inside = rounds ++ ⟨middle, .alternates⟩ :: (between ++ branches) ∧
          Items rounds ∧ Items between ∧ Branches branches

def Finishes : List BlockKind → List Instruction → Prop
  | [], list => Items list
  | kind :: kinds, list =>
    ∃ inside stop rest, list = inside ++ ⟨stop, .close⟩ :: rest ∧ Inside kind inside ∧
      Finishes kinds rest

theorem inside_nil (kind : BlockKind) : Inside kind [] := by
  cases kind with
  | branching | between => exact ⟨[], [], rfl, .nil, .nil⟩
  | rounds => exact .inl ⟨[], [], rfl, .nil, .nil⟩
  | lastBranch | macroBody => exact Items.nil

theorem inside_cons {kind : BlockKind} {item inside : List Instruction} (first : Item item)
    (h : Inside kind inside) : Inside kind (item ++ inside) := by
  cases kind with
  | branching | between =>
    obtain ⟨body, branches, rfl, items, more⟩ := h
    exact ⟨item ++ body, branches, by simp, .cons first items, more⟩
  | rounds =>
    rcases h with ⟨body, branches, rfl, items, more⟩ | ⟨rounds, middle, between, branches, rfl, h⟩
    · exact .inl ⟨item ++ body, branches, by simp, .cons first items, more⟩
    · exact .inr ⟨item ++ rounds, middle, between, branches, by simp, .cons first h.1, h.2⟩
  | lastBranch | macroBody => exact Items.cons first h

theorem finishes_cons {kinds : List BlockKind} {item list : List Instruction} (first : Item item)
    (h : Finishes kinds list) : Finishes kinds (item ++ list) := by
  cases kinds with
  | nil => exact Items.cons first h
  | cons kind kinds =>
    obtain ⟨inside, stop, rest, rfl, within, after⟩ := h
    exact ⟨item ++ inside, stop, rest, by simp, inside_cons first within, after⟩

theorem finishes_items {kinds : List BlockKind} {list items : List Instruction} :
    Items items → Finishes kinds list → Finishes kinds (items ++ list)
  | .nil, h => h
  | .cons first rest, h => by
    rw [List.append_assoc]
    exact finishes_cons first (finishes_items rest h)

theorem finishes_block {kinds : List BlockKind} {kind : BlockKind} {i : Instruction}
    {list : List Instruction}
    (block : ∀ inside stop, Inside kind inside → Item (i :: (inside ++ [⟨stop, .close⟩])))
    (h : Finishes (kind :: kinds) list) : Finishes kinds (i :: list) := by
  obtain ⟨inside, stop, rest, rfl, within, after⟩ := h
  have whole := finishes_cons (block inside stop within) after
  simpa using whole

theorem item_block (place : Position) (o : Opener) (inside : List Instruction) (stop : Position)
    (h : Inside .branching inside) :
    Item (⟨place, .opening o⟩ :: (inside ++ [⟨stop, .close⟩])) := by
  obtain ⟨body, branches, rfl, items, more⟩ := h
  exact .block place stop o items more

theorem item_repeated (place : Position) (var : VarName) (inside : List Instruction)
    (stop : Position) (h : Inside .rounds inside) :
    Item (⟨place, .repeated var⟩ :: (inside ++ [⟨stop, .close⟩])) := by
  rcases h with ⟨body, branches, rfl, items, more⟩ | ⟨rounds, middle, between, branches, rfl, h⟩
  · exact .repeated place stop var items more
  · exact .alternating place middle stop var h.1 h.2.1 h.2.2

theorem inside_branch {kind : BlockKind} (takes : kind.takesBranch = true) (place : Position)
    (call : Option Call) {inside : List Instruction} (h : Inside (.ofBranch call) inside) :
    Inside kind (⟨place, .or call⟩ :: inside) := by
  have branches : Branches (⟨place, .or call⟩ :: inside) := by
    cases call with
    | none => exact .last place h
    | some call =>
      obtain ⟨body, rest, rfl, items, more⟩ := h
      exact .test place call items more
  cases kind with
  | branching | between => exact ⟨[], _, rfl, .nil, branches⟩
  | rounds => exact .inl ⟨[], _, rfl, .nil, branches⟩
  | lastBranch | macroBody => cases takes

theorem finishes_of_step {kinds next : List BlockKind} {i : Instruction} {list : List Instruction}
    (going : i.op.isEof = false) (step : BlockKind.step kinds i.op = some next)
    (h : Finishes next list) : Finishes kinds (i :: list) := by
  obtain ⟨place, op⟩ := i
  cases op with
  | leaf l => cases step; exact finishes_cons (.leaf place l) h
  | opening o => cases step; exact finishes_block (item_block place o) h
  | repeated var => cases step; exact finishes_block (item_repeated place var) h
  | macroStart name =>
    cases step
    exact finishes_block (fun _ stop (within : Inside .macroBody _) =>
      .macroDef place stop name within) h
  | close =>
    cases kinds with
    | nil => cases step
    | cons kind kinds => cases step; exact ⟨[], place, list, rfl, inside_nil kind, h⟩
  | alternates =>
    cases kinds with
    | nil => cases step
    | cons kind kinds =>
      cases kind with
      | rounds =>
        cases step
        obtain ⟨inside, stop, rest, rfl, ⟨between, branches, rfl, items, more⟩, after⟩ := h
        have within : Inside .rounds (⟨place, .alternates⟩ :: (between ++ branches)) :=
          .inr ⟨[], place, between, branches, rfl, .nil, items, more⟩
        exact ⟨_, stop, rest, rfl, within, after⟩
      | branching | lastBranch | between | macroBody => cases step
  | or call =>
    cases kinds with
    | nil => cases step
    | cons kind kinds =>
      simp only [BlockKind.step] at step
      split at step
      · cases step
        obtain ⟨inside, stop, rest, rfl, within, after⟩ := h
        exact ⟨_, stop, rest, rfl, inside_branch ‹_› place call within, after⟩
      · cases step
  | eof => cases going

def Leads (kinds : List BlockKind) (list : List Instruction) : Prop :=
  (kinds = [] ∧ list = []) ∨
    ∃ i rest next, list = i :: rest ∧ i.op.isEof = false ∧
      BlockKind.step kinds i.op = some next ∧ Finishes next rest

theorem leads_close {kinds : List BlockKind} (kind : BlockKind) (stop : Position)
    {rest : List Instruction} (after : Finishes kinds rest) :
    Leads (kind :: kinds) (⟨stop, .close⟩ :: rest) :=
  .inr ⟨_, rest, kinds, rfl, rfl, rfl, after⟩

theorem leads_branches {kinds : List BlockKind} {kind : BlockKind}
    (takes : kind.takesBranch = true) (stop : Position) {branches rest : List Instruction}
    (more : Branches branches) (after : Finishes kinds rest) :
    Leads (kind :: kinds) (branches ++ ⟨stop, .close⟩ :: rest) := by
  cases more with
  | nil => exact leads_close kind stop after
  | test place call items further =>
    refine .inr ⟨_, _, .branching :: kinds, rfl, rfl, ?_, ?_⟩
    · simp [BlockKind.step, takes, BlockKind.ofBranch]
    · exact ⟨_, stop, rest, rfl, ⟨_, _, rfl, items, further⟩, after⟩
  | last place items =>
    refine .inr ⟨_, _, .lastBranch :: kinds, rfl, rfl, ?_, ?_⟩
    · simp [BlockKind.step, takes, BlockKind.ofBranch]
    · exact ⟨_, stop, rest, rfl, items, after⟩

theorem finishes_split {kinds : List BlockKind} {list : List Instruction}
    (h : Finishes kinds list) :
    ∃ items back, list = items ++ back ∧ Items items ∧ Finishes kinds back ∧ Leads kinds back := by
  cases kinds with
  | nil => exact ⟨list, [], by simp, h, Items.nil, .inl ⟨rfl, rfl⟩⟩
  | cons kind kinds =>
    obtain ⟨inside, stop, rest, rfl, within, after⟩ := h
    have closed : Finishes (kind :: kinds) (⟨stop, .close⟩ :: rest) :=
      ⟨[], stop, rest, rfl, inside_nil kind, after⟩
    cases kind with
    | lastBranch | macroBody =>
      exact ⟨inside, _, rfl, within, closed, leads_close _ stop after⟩
    | branching | between =>
      obtain ⟨body, branches, rfl, items, more⟩ := within
      refine ⟨body, branches ++ ⟨stop, .close⟩ :: rest, by simp, items, ?_, ?_⟩
      · exact ⟨branches, stop, rest, rfl, ⟨[], branches, rfl, .nil, more⟩, after⟩
      · exact leads_branches rfl stop more after
    | rounds =>
      rcases within with ⟨body, branches, rfl, items, more⟩ |
        ⟨rounds, middle, between, branches, rfl, items, inner, more⟩
      · refine ⟨body, branches ++ ⟨stop, .close⟩ :: rest, by simp, items, ?_, ?_⟩
        · exact ⟨branches, stop, rest, rfl, .inl ⟨[], branches, rfl, .nil, more⟩, after⟩
        · exact leads_branches rfl stop more after
      · refine ⟨rounds, ⟨middle, .alternates⟩ :: (between ++ branches) ++ ⟨stop, .close⟩ :: rest,
          by simp, items, ?_, ?_⟩
        · exact ⟨_, stop, rest, rfl, .inr ⟨[], middle, between, branches, rfl, .nil, inner, more⟩,
            after⟩
        · exact .inr ⟨_, _, .between :: kinds, rfl, rfl, rfl, _, stop, rest, rfl,
            ⟨between, branches, rfl, inner, more⟩, after⟩

theorem items_first {i : Instruction} {list : List Instruction} (h : Items (i :: list)) :
    i.op.isEof = false ∧
      ((∀ kinds, BlockKind.step kinds i.op = some kinds) ∧ Items list ∨
        ∃ kind inside stop rest, (∀ kinds, BlockKind.step kinds i.op = some (kind :: kinds)) ∧
          Inside kind inside ∧ Items rest ∧ list = inside ++ ⟨stop, .close⟩ :: rest) := by
  generalize whole : i :: list = all at h
  cases h with
  | nil => cases whole
  | cons first after =>
    cases first with
    | leaf => cases whole; exact ⟨rfl, .inl ⟨fun _ => rfl, after⟩⟩
    | block place stop o items more =>
      cases whole
      exact ⟨rfl, .inr ⟨.branching, _, stop, _, fun _ => rfl, ⟨_, _, rfl, items, more⟩, after,
        by simp⟩⟩
    | repeated place stop var items more =>
      cases whole
      exact ⟨rfl, .inr ⟨.rounds, _, stop, _, fun _ => rfl, .inl ⟨_, _, rfl, items, more⟩, after,
        by simp⟩⟩
    | alternating place middle stop var items inner more =>
      cases whole
      exact ⟨rfl, .inr ⟨.rounds, _, stop, _, fun _ => rfl,
        .inr ⟨_, middle, _, _, rfl, items, inner, more⟩, after, by simp⟩⟩
    | macroDef place stop name items =>
      cases whole
      exact ⟨rfl, .inr ⟨.macroBody, _, stop, _, fun _ => rfl, items, after, by simp⟩⟩

theorem step_of_finishes {kinds : List BlockKind} {i : Instruction} {list : List Instruction}
    (h : Finishes kinds (i :: list)) :
    i.op.isEof = false ∧ ∃ next, BlockKind.step kinds i.op = some next ∧ Finishes next list := by
  obtain ⟨items, back, split, front, closed, leads⟩ := finishes_split h
  cases items with
  | nil =>
    rcases leads with ⟨-, rfl⟩ | ⟨j, rest, next, rfl, going, step, after⟩
    · cases split
    · cases split
      exact ⟨going, next, step, after⟩
  | cons j items =>
    cases split
    obtain ⟨going, ⟨step, rest⟩ | ⟨kind, inside, stop, rest, step, within, after, rfl⟩⟩ :=
      items_first front
    · exact ⟨going, kinds, step kinds, finishes_items rest closed⟩
    · exact ⟨going, kind :: kinds, step kinds, inside, stop, rest ++ back, by simp, within,
        finishes_items after closed⟩

theorem finishes_of_run {kinds : List BlockKind} {list : List Instruction}
    (going : ∀ i ∈ list, i.op.isEof = false) (h : BlockKind.run kinds list = some []) :
    Finishes kinds list := by
  -- The kinds are general, as each instruction leaves other blocks open.
  induction list generalizing kinds with
  | nil =>
    cases kinds with
    | nil => exact Items.nil
    | cons => cases h
  | cons i list ih =>
    obtain ⟨next, step, after⟩ := Option.bind_eq_some_iff.mp h
    have rest : Finishes next list := ih (fun j hj => going j (List.mem_cons_of_mem _ hj)) after
    exact finishes_of_step (going i List.mem_cons_self) step rest

theorem run_of_finishes {kinds : List BlockKind} {list : List Instruction}
    (h : Finishes kinds list) :
    BlockKind.run kinds list = some [] ∧ ∀ i ∈ list, i.op.isEof = false := by
  induction list generalizing kinds with
  | nil =>
    cases kinds with
    | nil => exact ⟨rfl, by simp⟩
    | cons kind kinds =>
      obtain ⟨inside, stop, rest, split, -⟩ := h
      simp at split
  | cons i list ih =>
    obtain ⟨going, next, step, after⟩ := step_of_finishes h
    obtain ⟨run, rest⟩ := ih after
    refine ⟨Option.bind_eq_some_iff.mpr ⟨next, step, run⟩, ?_⟩
    intro j hj
    rcases List.mem_cons.mp hj with rfl | hj
    · exact going
    · exact rest j hj

theorem derives_iff {items : List Instruction} (stop : Position)
    (going : ∀ i ∈ items, i.op.isEof = false) :
    Derives (items ++ [⟨stop, .eof⟩]) ↔ BlockKind.run [] items = some [] := by
  constructor
  · intro h
    generalize whole : items ++ [⟨stop, .eof⟩] = all at h
    obtain ⟨place, front⟩ := h
    have same := List.append_inj_left' whole rfl
    rw [same]
    exact (run_of_finishes (show Finishes [] _ from front)).1
  · intro h
    exact .template stop (finishes_of_run going h)

theorem viable_of_run {front : List Instruction} {kinds : List BlockKind}
    (going : ∀ i ∈ front, i.op.isEof = false) (h : BlockKind.run [] front = some kinds) :
    Viable front := by
  induction kinds generalizing front with
  | nil => exact ⟨[⟨.start, .eof⟩], (derives_iff .start going).mpr h⟩
  | cons kind kinds ih =>
    have closed : BlockKind.run [] (front ++ [⟨.start, .close⟩]) = some kinds := by
      rw [BlockKind.run_append, h]
      rfl
    obtain ⟨back, derives⟩ := ih (by simpa [Op.isEof, or_imp, forall_and] using going) closed
    exact ⟨⟨.start, .close⟩ :: back, by simpa using derives⟩

theorem run_of_viable {front : List Instruction} (h : Viable front) :
    ∃ kinds, BlockKind.run [] front = some kinds := by
  obtain ⟨back, derives⟩ := h
  generalize whole : front ++ back = all at derives
  obtain ⟨stop, items⟩ := derives
  have run : BlockKind.run [] (front ++ back) = some [] := by
    rw [whole, BlockKind.run_append, (run_of_finishes (show Finishes [] _ from items)).1]
    rfl
  rw [BlockKind.run_append] at run
  obtain ⟨kinds, passed, -⟩ := Option.bind_eq_some_iff.mp run
  exact ⟨kinds, passed⟩

theorem viable_concat_iff {front : List Instruction} {kinds : List BlockKind}
    (going : ∀ i ∈ front, i.op.isEof = false) (h : BlockKind.run [] front = some kinds)
    (i : Instruction) : Viable (front ++ [i]) ↔ BlockKind.step kinds i.op ≠ none := by
  have last : BlockKind.run [] (front ++ [i]) = BlockKind.step kinds i.op := by
    rw [BlockKind.run_append, h]
    simp [BlockKind.run]
  constructor
  · intro viable
    obtain ⟨next, passed⟩ := run_of_viable viable
    rw [← last, passed]
    exact Option.some_ne_none next
  · intro known
    obtain ⟨next, step⟩ := Option.ne_none_iff_exists'.mp known
    cases ends : i.op.isEof with
    | false =>
      exact viable_of_run (by simpa [ends, or_imp, forall_and] using going) (last.trans step)
    | true =>
      obtain ⟨place, op⟩ := i
      cases op with
      | eof =>
        cases kinds with
        | nil => exact ⟨[], by simpa using (derives_iff place going).mpr h⟩
        | cons => cases step
      | leaf | opening | repeated | alternates | or | macroStart | close => cases ends

end Grammar

namespace Assembly

theorem accept_strict {a : Assembly} (i : Instruction) (strict : a.lenient = false)
    (going : a.eof = none) (h : a.stack.Sound) :
    (∃ next, BlockKind.step a.stack.kinds i.op = some next.stack.kinds ∧ next.stack.Sound ∧
        next.lenient = false ∧ (i.op.isEof = false → next.eof = none) ∧
        a.accept i = (next, none)) ∨
      (BlockKind.step a.stack.kinds i.op = none ∧
        ∃ d, a.accept i = ({ a with count := a.count + 1 }, some d)) := by
  have unfinished := isComplete_of_eof going
  cases objection : a.stack.objection i with
  | none =>
    obtain ⟨kinds, sound⟩ := Stack.step_of_objection_none h objection
    exact .inl ⟨({ a with count := a.count + 1 } : Assembly).take i, kinds, sound, strict,
      fun inside => (take_eof inside).trans going, accept_allowed unfinished objection⟩
  | some d =>
    exact .inr ⟨Stack.step_of_objection_some objection, d,
      accept_refused strict unfinished objection⟩

theorem feed_append (a : Assembly) (front back : List Instruction) :
    a.feed (front ++ back) =
      match a.feed front with
      | (next, none) => next.feed back
      | (next, some d) => (next, some d) := by
  induction front generalizing a with
  | nil => rfl
  | cons i rest ih =>
    simp only [List.cons_append, feed]
    rcases a.accept i with ⟨next, _ | d⟩
    · exact ih next
    · rfl

theorem feed_strict (a : Assembly) (front : List Instruction) (strict : a.lenient = false)
    (going : a.eof = none) (h : a.stack.Sound) (inside : ∀ i ∈ front, i.op.isEof = false) :
    (∃ next, a.feed front = (next, none) ∧
        BlockKind.run a.stack.kinds front = some next.stack.kinds ∧ next.stack.Sound ∧
        next.lenient = false ∧ next.eof = none) ∨
      ((a.feed front).2 ≠ none ∧ BlockKind.run a.stack.kinds front = none) := by
  induction front generalizing a with
  | nil => exact .inl ⟨a, rfl, rfl, h, strict, going⟩
  | cons i rest ih =>
    rcases accept_strict i strict going h with
      ⟨next, step, sound, still, notOver, accepted⟩ | ⟨step, d, refused⟩
    · have further := ih next still (notOver (inside i List.mem_cons_self)) sound
        (fun j hj => inside j (List.mem_cons_of_mem _ hj))
      simpa [feed, accepted, BlockKind.run, step] using further
    · exact .inr ⟨by simp [feed, refused], by simp [BlockKind.run, step]⟩

/-- A strict assembly takes in a list that ends with its only end of the source exactly when the
list derives from the grammar. It hands back the first instruction after which no template is left,
and then only its count changes. -/
theorem strict_feed_iff_derives (items : List Instruction) (stop : Position)
    (going : ∀ i ∈ items, i.op.isEof = false) :
    (((start false).feed (items ++ [⟨stop, .eof⟩])).2 = none ↔
        Grammar.Derives (items ++ [⟨stop, .eof⟩])) ∧
      ∀ before i after, items ++ [⟨stop, .eof⟩] = before ++ i :: after → Grammar.Viable before →
        ∃ a, (start false).feed before = (a, none) ∧
          (Grammar.Viable (before ++ [i]) → (a.accept i).2 = none) ∧
          (¬ Grammar.Viable (before ++ [i]) →
            ∃ d, a.accept i = ({ a with count := a.count + 1 }, some d)) := by
  constructor
  · rw [Grammar.derives_iff stop going, feed_append]
    rcases feed_strict (start false) items rfl rfl Stack.sound_empty going with
      ⟨a, fed, run, sound, strict, open'⟩ | ⟨refused, run⟩
    · have run : BlockKind.run [] items = some a.stack.kinds := run
      rw [fed, run]
      rcases accept_strict ⟨stop, .eof⟩ strict open' sound with
        ⟨next, step, -, -, -, accepted⟩ | ⟨step, d, refused⟩
      · cases kinds : a.stack.kinds with
        | nil => simp [feed, accepted]
        | cons => rw [kinds] at step; cases step
      · cases kinds : a.stack.kinds with
        | nil => rw [kinds] at step; cases step
        | cons => simp [feed, refused]
    · have run : BlockKind.run [] items = none := run
      rcases fed : (start false).feed items with ⟨a, _ | d⟩
      · exact absurd (by rw [fed]) refused
      · simp [run]
  · intro before i after split viable
    have inside : ∀ j ∈ before, j.op.isEof = false := by
      have shorter := congrArg List.dropLast split
      rw [List.dropLast_concat, List.dropLast_append_of_ne_nil (by simp)] at shorter
      intro j hj
      exact going j (by rw [shorter]; exact List.mem_append_left _ hj)
    obtain ⟨kinds, passed⟩ := Grammar.run_of_viable viable
    rcases feed_strict (start false) before rfl rfl Stack.sound_empty inside with
      ⟨a, fed, run, sound, strict, open'⟩ | ⟨-, run⟩
    · have known := Grammar.viable_concat_iff inside run i
      refine ⟨a, fed, ?_, ?_⟩
      · intro further
        rcases accept_strict i strict open' sound with ⟨next, -, -, -, -, accepted⟩ | ⟨step, -⟩
        · rw [accepted]
        · exact absurd step (known.mp further)
      · intro stuck
        rcases accept_strict i strict open' sound with ⟨next, step, -⟩ | ⟨-, refused⟩
        · exact absurd (known.mpr (by rw [step]; exact Option.some_ne_none _)) stuck
        · exact refused
    · cases run.symm.trans passed

/-- A repeated section whose last branch follows the part between rounds. -/
theorem strict_feed_alternating :
    let items : List Instruction :=
      [⟨.start, .repeated .current⟩, ⟨.start, .leaf (.brace true)⟩, ⟨.start, .alternates⟩,
        ⟨.start, .or none⟩, ⟨.start, .close⟩]
    (∀ i ∈ items, i.op.isEof = false) ∧ Grammar.Derives (items ++ [⟨.start, .eof⟩]) := by
  intro items
  have going : ∀ i ∈ items, i.op.isEof = false := by decide
  exact ⟨going, (strict_feed_iff_derives items .start going).1.mp rfl⟩

end Assembly

end JsonTemplate

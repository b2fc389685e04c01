import JsonTemplate.Proofs.Template.Canonical

namespace JsonTemplate

open JsonTemplate.Text

def OpenHead.canonical : OpenHead → OpenHead
  | block _ o => block .nowhere o.canonical
  | repeated _ var alternates => repeated .nowhere var (Tree.canonicalAlternates alternates)
  | between _ _ var rounds => between .nowhere .nowhere var (rounds.map Tree.canonical)
  | or _ call => or .nowhere (call.map Call.canonical)
  | macroDef _ name => macroDef .nowhere name

def OpenBlock.canonical (b : OpenBlock) : OpenBlock :=
  ⟨b.head.canonical, b.body.map Tree.canonical⟩

def Stack.canonical (s : Stack) : Stack :=
  ⟨s.blocks.map OpenBlock.canonical, s.root.map Tree.canonical⟩

theorem BlockKind.step_canonical (kinds : List BlockKind) (op : Op) :
    step kinds op.canonical = step kinds op := by
  cases op with
  | or call =>
    have branch : ofBranch (call.map Call.canonical) = ofBranch call := by cases call <;> rfl
    cases kinds with
    | nil => rfl
    | cons => simp only [Op.canonical, step, branch]
  | leaf | opening | repeated | macroStart => rfl
  | alternates | close | eof => rfl

namespace Stack

theorem kinds_canonical (s : Stack) : s.canonical.kinds = s.kinds := by
  obtain ⟨blocks, root⟩ := s
  change OpenBlock.kinds (blocks.map OpenBlock.canonical) = OpenBlock.kinds blocks
  induction blocks with
  | nil => rfl
  | cons top rest ih =>
    obtain ⟨head, body⟩ := top
    have kind : head.canonical.kind = head.kind := by
      cases head with
      | or place call => cases call <;> rfl
      | block | repeated | between | macroDef => rfl
    have branch : head.canonical.isBranch = head.isBranch := by cases head <;> rfl
    simp only [List.map_cons, OpenBlock.kinds, OpenBlock.canonical, kind, branch, ih]

theorem add_canonical (t : Tree) (s : Stack) :
    (add t s).canonical = add t.canonical s.canonical := by
  obtain ⟨blocks, root⟩ := s
  cases blocks <;> rfl

theorem push_canonical (head : OpenHead) (s : Stack) :
    (push head s).canonical = push head.canonical s.canonical := rfl

theorem close_canonical (root : List Tree) (tail : Tail) (blocks : List OpenBlock) :
    (close root tail blocks).canonical =
      close (root.map Tree.canonical) (Tree.canonicalTail tail)
        (blocks.map OpenBlock.canonical) := by
  induction blocks generalizing tail with
  | nil => rfl
  | cons top rest ih =>
    obtain ⟨head, body⟩ := top
    have reversed : Tree.canonicalAll body.reverse = (body.map Tree.canonical).reverse := by
      rw [Tree.canonicalAll_eq_map, List.map_reverse]
    cases head with
    | or place call =>
      rw [close, ih, Tree.canonicalTail, reversed]
      rfl
    | block place o =>
      rw [close, add_canonical, Tree.canonical, reversed]
      rfl
    | repeated place var alternates =>
      rw [close, add_canonical, Tree.canonical, reversed]
      rfl
    | macroDef place name =>
      have closed : closePlace (Tree.canonicalTail tail) = eraseNext (closePlace tail) := by
        cases tail <;> rfl
      rw [close, add_canonical, Tree.canonical, reversed, ← closed]
      rfl
    | between place start var rounds =>
      have before : Tree.canonicalAll rounds.reverse = (rounds.map Tree.canonical).reverse := by
        rw [Tree.canonicalAll_eq_map, List.map_reverse]
      rw [close, add_canonical, Tree.canonical, Tree.canonicalAlternates, before, reversed]
      rfl

theorem startBetween_canonical (place : Position) (s : Stack) :
    (startBetween place s).canonical = startBetween .nowhere s.canonical := by
  obtain ⟨blocks, root⟩ := s
  cases blocks with
  | nil => rfl
  | cons top rest =>
    obtain ⟨head, body⟩ := top
    cases head <;> rfl

theorem endBetween_canonical (implied : Position) (s : Stack) :
    (endBetween implied s).canonical = endBetween .nowhere s.canonical := by
  obtain ⟨blocks, root⟩ := s
  cases blocks with
  | nil => rfl
  | cons top rest =>
    obtain ⟨head, body⟩ := top
    cases head with
    | between place start var rounds =>
      have reversed : Tree.canonicalAll body.reverse = (body.map Tree.canonical).reverse := by
        rw [Tree.canonicalAll_eq_map, List.map_reverse]
      simp only [endBetween, canonical, List.map_cons, OpenBlock.canonical, OpenHead.canonical,
        Tree.canonicalAlternates, reversed]
      rfl
    | block | repeated | or | macroDef => rfl

theorem collapse_canonical (fuel : Nat) (s : Stack) :
    (collapse fuel s).canonical = collapse fuel s.canonical := by
  induction fuel generalizing s with
  | zero => rfl
  | succ fuel ih =>
    obtain ⟨blocks, root⟩ := s
    cases blocks with
    | nil => rfl
    | cons top rest =>
      rw [collapse, ih, close_canonical]
      rfl

theorem closeAll_canonical (s : Stack) : s.closeAll.canonical = s.canonical.closeAll := by
  rw [closeAll, collapse_canonical]
  simp [closeAll, canonical]

theorem take_canonical (s : Stack) (i : Instruction) :
    (s.take i).canonical = s.canonical.take i.canonical := by
  obtain ⟨place, op⟩ := i
  cases op with
  | leaf l => exact add_canonical _ _
  | opening | repeated | macroStart => rfl
  | alternates => exact startBetween_canonical _ _
  | or call =>
    rw [take, push_canonical, endBetween_canonical]
    rfl
  | close => exact close_canonical _ _ _
  | eof => exact closeAll_canonical s

end Stack

namespace Assembly

def canonical (a : Assembly) : Assembly :=
  { a with stack := a.stack.canonical, eof := eraseNext a.eof }

theorem take_canonical (a : Assembly) (i : Instruction) :
    (a.take i).canonical = a.canonical.take i.canonical := by
  obtain ⟨place, op⟩ := i
  simp only [canonical, take, Stack.take_canonical]
  cases op <;> rfl

theorem finish_canonical (a : Assembly) : a.finish.canonical = a.canonical.finish := by
  have closed := congrArg Stack.root (Stack.closeAll_canonical a.stack)
  simp only [Template.canonical, finish, Tree.canonicalAll_eq_map, List.map_reverse]
  exact congrArg (fun root : List Tree => (⟨root.reverse, eraseNext a.eof⟩ : Template)) closed

/-- What is known of the assemblies of two runs. -/
structure Alike (a b : Assembly) : Prop where
  strict : b.lenient = false
  sound : a.stack.Sound
  sound_other : b.stack.Sound
  same : a.canonical = b.canonical

variable {a b : Assembly} {i j : Instruction}

theorem Alike.isComplete (h : Alike a b) : a.isComplete = b.isComplete := by
  have ends := congrArg (fun a : Assembly => a.eof.isSome) h.same
  simpa [canonical, eraseNext, Assembly.isComplete] using ends

theorem Alike.kinds (h : Alike a b) : a.stack.kinds = b.stack.kinds := by
  have same := congrArg (fun a : Assembly => a.stack.kinds) h.same
  simpa [canonical, Stack.kinds_canonical] using same

theorem Alike.accept {next : Assembly} (h : Alike a b) (alike : i.canonical = j.canonical)
    (strict : a.lenient = false) (taken : a.accept i = (next, none)) :
    ∃ after, b.accept j = (after, none) ∧ Alike next after ∧ next.lenient = false := by
  have counted : ({ a with count := a.count + 1 } : Assembly).canonical =
      ({ b with count := b.count + 1 } : Assembly).canonical :=
    congrArg (fun a : Assembly => { a with count := a.count + 1 }) h.same
  cases complete : a.isComplete with
  | true =>
    rw [accept_complete i complete] at taken
    cases taken
    rw [h.isComplete] at complete
    exact ⟨_, accept_complete j complete, ⟨h.strict, h.sound, h.sound_other, counted⟩, strict⟩
  | false =>
    cases objection : a.stack.objection i with
    | some d =>
      rw [accept_refused strict complete objection] at taken
      cases taken
    | none =>
      rw [accept_allowed complete objection] at taken
      cases taken
      rw [h.isComplete] at complete
      obtain ⟨known, sound⟩ := Stack.step_of_objection_none h.sound objection
      -- Places decide nothing: the open blocks are of the same kinds, and so are the instructions.
      have same : BlockKind.step b.stack.kinds j.op = BlockKind.step a.stack.kinds i.op := by
        have ops : i.op.canonical = j.op.canonical := congrArg Instruction.op alike
        rw [← h.kinds, ← BlockKind.step_canonical _ j.op, ← ops, BlockKind.step_canonical]
      cases other : b.stack.objection j with
      | some d =>
        rw [Stack.step_of_objection_some other, known] at same
        cases same
      | none =>
        have sound_other := (Stack.step_of_objection_none h.sound_other other).2
        refine ⟨_, accept_allowed complete other, ⟨h.strict, sound, sound_other, ?_⟩, strict⟩
        rw [take_canonical, take_canonical, counted, alike]

theorem Alike.feed {next : Assembly} {instructions others : List Instruction} (h : Alike a b)
    (alike : instructions.map Instruction.canonical = others.map Instruction.canonical)
    (strict : a.lenient = false) (fed : a.feed instructions = (next, none)) :
    ∃ after, b.feed others = (after, none) ∧ next.canonical = after.canonical := by
  induction instructions generalizing a b others with
  | nil =>
    rw [List.map_nil, eq_comm, List.map_eq_nil_iff] at alike
    cases fed
    exact ⟨b, by rw [alike]; rfl, h.same⟩
  | cons i rest ih =>
    cases others with
    | nil => cases alike
    | cons j others =>
      obtain ⟨first, more⟩ := List.cons.inj alike
      rcases step : a.accept i with ⟨middle, _ | d⟩
      · obtain ⟨after, same, still, strictly⟩ := h.accept first strict step
        rw [feed_cons rest step] at fed
        rw [feed_cons others same]
        exact ih still more strictly fed
      · simp [Assembly.feed, step] at fed

theorem alike_start : Alike (start false) (start false) :=
  ⟨rfl, Stack.sound_empty, Stack.sound_empty, rfl⟩

end Assembly

end JsonTemplate

import JsonTemplate.Proofs.Assembly.Grammar

namespace JsonTemplate

open JsonTemplate.Text

namespace Stack

def extend (base : Stack) (items : List Tree) : Stack :=
  match base.blocks with
  | [] => { base with root := items ++ base.root }
  | top :: rest => { base with blocks := { top with body := items ++ top.body } :: rest }

def onto (base s : Stack) : Stack :=
  { base.extend s.root with blocks := s.blocks ++ (base.extend s.root).blocks }

variable (base : Stack)

theorem extend_nil : base.extend [] = base := by
  obtain ⟨_ | ⟨top, rest⟩, root⟩ := base <;> rfl

theorem extend_cons (t : Tree) (items : List Tree) :
    base.extend (t :: items) = (base.extend items).add t := by
  obtain ⟨_ | ⟨top, rest⟩, root⟩ := base <;> rfl

theorem onto_empty : base.onto empty = base := by
  rw [onto, empty, extend_nil]
  rfl

theorem onto_add (t : Tree) (s : Stack) : base.onto (s.add t) = (base.onto s).add t := by
  obtain ⟨_ | ⟨top, rest⟩, root⟩ := s
  · exact base.extend_cons t root
  · rfl

theorem onto_close {root : List Tree} (tail : Tail) {blocks : List OpenBlock}
    (nested : OpenBlock.Nested blocks) (inside : blocks ≠ []) :
    base.onto (close root tail blocks) =
      close (base.onto ⟨blocks, root⟩).root tail (base.onto ⟨blocks, root⟩).blocks := by
  induction blocks generalizing tail with
  | nil => exact absurd rfl inside
  | cons top rest ih =>
    obtain ⟨head, body⟩ := top
    cases head with
    | or place call =>
      -- A branch stands on another block, so the recursion ends above the base.
      cases rest with
      | nil => cases nested.1
      | cons below rest => exact ih _ nested.2 (List.cons_ne_nil _ _)
    | block | repeated | between | macroDef => exact onto_add base _ ⟨rest, root⟩

theorem onto_startBetween (place : Position) {s : Stack} (inside : s.blocks ≠ []) :
    base.onto (s.startBetween place) = (base.onto s).startBetween place := by
  obtain ⟨_ | ⟨⟨head, body⟩, rest⟩, root⟩ := s
  · exact absurd rfl inside
  · cases head <;> rfl

theorem onto_endBetween (place : Position) {s : Stack} (inside : s.blocks ≠ []) :
    base.onto (s.endBetween place) = (base.onto s).endBetween place := by
  obtain ⟨_ | ⟨⟨head, body⟩, rest⟩, root⟩ := s
  · exact absurd rfl inside
  · cases head <;> rfl

variable {s : Stack} {i : Instruction}

theorem onto_take (sound : s.Sound) (allowed : s.objection i = none) (going : i.op.isEof = false) :
    (base.onto s).objection i = none ∧ base.onto (s.take i) = (base.onto s).take i := by
  obtain ⟨place, op⟩ := i
  obtain ⟨blocks, root⟩ := s
  cases op with
  | leaf l => exact ⟨rfl, base.onto_add _ _⟩
  | opening | repeated | macroStart => exact ⟨rfl, rfl⟩
  | eof => cases going
  | alternates | or | close =>
    cases blocks with
    | nil => cases allowed
    | cons top rest => exact ⟨allowed, by
        first
          | exact base.onto_startBetween place (List.cons_ne_nil _ _)
          | exact congrArg (push _) (base.onto_endBetween place (List.cons_ne_nil _ _))
          | exact base.onto_close _ sound.nested (List.cons_ne_nil _ _)⟩

end Stack

namespace Assembly

def onto (base a : Assembly) : Assembly :=
  { base with stack := base.stack.onto a.stack, count := base.count + a.count }

/-- A strict assembly whose source has not ended. -/
structure Going (a : Assembly) : Prop where
  strict : a.lenient = false
  eof : a.eof = none
  sound : a.stack.Sound

theorem going_start : (start false).Going := ⟨rfl, rfl, Stack.sound_empty⟩

variable {a b base next : Assembly} {i : Instruction} {items : List Instruction}

theorem onto_start : base.onto (start false) = base := by
  rw [onto, start, Stack.onto_empty]
  rfl

theorem take_inside (inside : i.op.isEof = false) :
    a.take i = { a with stack := a.stack.take i } := by
  obtain ⟨place, op⟩ := i
  cases op with
  | eof => cases inside
  | leaf | opening | repeated | alternates | or | macroStart | close => rfl

theorem Going.accept (h : a.Going) (inside : i.op.isEof = false)
    (taken : a.accept i = (next, none)) :
    a.stack.objection i = none ∧ next.Going ∧
      next = { a with stack := a.stack.take i, count := a.count + 1 } := by
  have unfinished := isComplete_of_eof h.eof
  cases objection : a.stack.objection i with
  | some d =>
    rw [accept_refused h.strict unfinished objection] at taken
    cases taken
  | none =>
    rw [accept_allowed unfinished objection, take_inside inside] at taken
    cases taken
    exact ⟨rfl, ⟨h.strict, h.eof, (Stack.step_of_objection_none h.sound objection).2⟩, rfl⟩

theorem Going.onto_accept (h : a.Going) (open' : base.eof = none) (inside : i.op.isEof = false)
    (taken : a.accept i = (next, none)) :
    (base.onto a).accept i = (base.onto next, none) ∧ next.Going := by
  obtain ⟨allowed, going, rfl⟩ := h.accept inside taken
  obtain ⟨there, same⟩ := base.stack.onto_take h.sound allowed inside
  have there : (base.onto a).stack.objection i = none := there
  have unfinished : (base.onto a).isComplete = false := isComplete_of_eof open'
  refine ⟨?_, going⟩
  rw [accept_allowed unfinished there, take_inside inside]
  simp only [onto, same, Nat.add_assoc]

theorem Going.onto_feed (h : a.Going) (base : Assembly) (open' : base.eof = none)
    (inside : ∀ i ∈ items, i.op.isEof = false) (fed : a.feed items = (b, none)) :
    (base.onto a).feed items = (base.onto b, none) ∧ b.Going := by
  induction items generalizing a with
  | nil =>
    cases fed
    exact ⟨rfl, h⟩
  | cons i rest ih =>
    rcases step : a.accept i with ⟨next, _ | d⟩
    · rw [feed_cons rest step] at fed
      obtain ⟨there, going⟩ := h.onto_accept open' (inside i List.mem_cons_self) step
      rw [feed_cons rest there]
      exact ih going (fun j member => inside j (List.mem_cons_of_mem _ member)) fed
    · simp [feed, step] at fed

theorem feed_split {front back : List Instruction} (fed : a.feed (front ++ back) = (b, none)) :
    ∃ middle, a.feed front = (middle, none) ∧ middle.feed back = (b, none) := by
  rw [feed_append] at fed
  rcases first : a.feed front with ⟨middle, _ | d⟩
  · rw [first] at fed
    exact ⟨middle, rfl, fed⟩
  · rw [first] at fed
    cases fed

theorem Going.feed_eof (h : a.Going) {stop : Position} (fed : a.feed [⟨stop, .eof⟩] = (b, none)) :
    a.stack.blocks = [] ∧ b.finish.body = a.stack.root.reverse := by
  obtain ⟨⟨blocks, root⟩, lenient, problems, count, eof⟩ := a
  cases h.strict
  cases h.eof
  cases blocks with
  | cons top rest => cases fed
  | nil =>
    cases fed
    exact ⟨rfl, rfl⟩

theorem feed_eof_flat (open' : a.eof = none) {items : List Tree} (flat : a.stack = ⟨[], items⟩)
    (stop : Position) :
    ∃ s, a.feed [⟨stop, .eof⟩] = (s, none) ∧ s.finish.body = items.reverse := by
  obtain ⟨stack, lenient, problems, count, eof⟩ := a
  cases open'
  cases flat
  exact ⟨_, rfl, rfl⟩

theorem feed_start {stop : Position} (inside : ∀ i ∈ items, i.op.isEof = false)
    (fed : (start false).feed (items ++ [⟨stop, .eof⟩]) = (b, none)) :
    ∃ count, ∀ base : Assembly, base.eof = none → base.feed items =
      ({ base with stack := base.stack.extend b.finish.body.reverse, count := base.count + count },
        none) := by
  obtain ⟨a, first, last⟩ := feed_split fed
  have going := (going_start.onto_feed (start false) rfl inside first).2
  obtain ⟨closed, body⟩ := going.feed_eof last
  refine ⟨a.count, fun base open' => ?_⟩
  have there := (going_start.onto_feed base open' inside first).1
  -- All blocks are closed at the end, so only the root is put onto the base.
  rw [onto_start, onto, Stack.onto, closed] at there
  rw [there, body, List.reverse_reverse]
  rfl

theorem feed_macro (place close stop : Position) (name : String) {inner rest : List Instruction}
    {stop₁ stop₂ : Position} (insideInner : ∀ i ∈ inner, i.op.isEof = false)
    (insideRest : ∀ i ∈ rest, i.op.isEof = false)
    (fedInner : (start false).feed (inner ++ [⟨stop₁, .eof⟩]) = (a, none))
    (fedRest : (start false).feed (rest ++ [⟨stop₂, .eof⟩]) = (b, none)) :
    ∃ s, (start false).feed
        (⟨place, .macroStart name⟩ :: (inner ++ ⟨close, .close⟩ :: (rest ++ [⟨stop, .eof⟩]))) =
          (s, none) ∧
      s.finish.body = .macroDef place name a.finish.body (some close) :: b.finish.body := by
  obtain ⟨m, first⟩ := feed_start insideInner fedInner
  obtain ⟨n, second⟩ := feed_start insideRest fedRest
  let opened : Assembly := ⟨⟨[⟨.macroDef place name, []⟩], []⟩, false, [], 1, none⟩
  let filled : Assembly :=
    ⟨⟨[⟨.macroDef place name, a.finish.body.reverse⟩], []⟩, false, [], 1 + m, none⟩
  let closed : Assembly :=
    ⟨⟨[], [.macroDef place name a.finish.body (some close)]⟩, false, [], 1 + m + 1, none⟩
  let done : Assembly := { closed with
    stack := ⟨[], b.finish.body.reverse ++ [.macroDef place name a.finish.body (some close)]⟩
    count := closed.count + n }
  have starts : (start false).accept ⟨place, .macroStart name⟩ = (opened, none) := rfl
  have fills : opened.feed inner = (filled, none) := by
    rw [first opened rfl]
    simp [opened, filled, Stack.extend]
  have closes : filled.accept ⟨close, .close⟩ = (closed, none) := by
    simp [accept, isComplete, Stack.objection, take, Stack.take, Stack.close, Stack.add, filled,
      closed, Stack.closePlace]
  have ends : closed.feed rest = (done, none) := second closed rfl
  obtain ⟨s, last, body⟩ := feed_eof_flat (a := done) rfl rfl stop
  refine ⟨s, ?_, ?_⟩
  · rw [feed_cons _ starts, feed_append, fills]
    dsimp only
    rw [feed_cons _ closes, feed_append, ends]
    exact last
  · rw [body]
    simp

end Assembly

end JsonTemplate

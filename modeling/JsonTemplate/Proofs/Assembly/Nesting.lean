import JsonTemplate.Template.Assembly

namespace JsonTemplate

open JsonTemplate.Text

def Op.isEof : Op → Bool
  | eof => true
  | _ => false

/-- What an open block can still become. -/
inductive BlockKind where
  | branching
  | lastBranch
  | rounds
  | between
  | macroBody
  deriving Repr, DecidableEq

namespace BlockKind

def ofBranch : Option Call → BlockKind
  | none => lastBranch
  | some _ => branching

def takesBranch : BlockKind → Bool
  | branching | rounds | between => true
  | lastBranch | macroBody => false

/-- The open blocks after an instruction, innermost first; none where it is not allowed. The end of
the source is allowed where no block is open. -/
def step : List BlockKind → Op → Option (List BlockKind)
  | kinds, .leaf _ => some kinds
  | kinds, .opening _ => some (branching :: kinds)
  | kinds, .repeated _ => some (rounds :: kinds)
  | kinds, .macroStart _ => some (macroBody :: kinds)
  | _ :: kinds, .close => some kinds
  | kind :: kinds, .or call => if kind.takesBranch then some (ofBranch call :: kinds) else none
  | rounds :: kinds, .alternates => some (between :: kinds)
  | [], .eof => some []
  | _, _ => none

def run : List BlockKind → List Instruction → Option (List BlockKind)
  | kinds, [] => some kinds
  | kinds, i :: rest => (step kinds i.op).bind fun next => run next rest

theorem run_append (kinds : List BlockKind) (front back : List Instruction) :
    run kinds (front ++ back) = (run kinds front).bind fun next => run next back := by
  induction front generalizing kinds with
  | nil => rfl
  | cons i rest ih =>
    simp only [List.cons_append, run]
    cases step kinds i.op with
    | none => rfl
    | some next => exact ih next

end BlockKind

namespace OpenHead

def isBranch : OpenHead → Bool
  | or _ _ => true
  | _ => false

def takesBranch : OpenHead → Bool
  | block _ _ | repeated _ _ _ => true
  | or _ call => call.isSome
  | between _ _ _ _ | macroDef _ _ => false

def takesItems : OpenHead → Bool
  | repeated _ _ (.between _ _ _) => false
  | _ => true

def kind : OpenHead → BlockKind
  | block _ _ => .branching
  | repeated _ _ _ => .rounds
  | between _ _ _ _ => .between
  | or _ call => .ofBranch call
  | macroDef _ _ => .macroBody

def FitsOn (h : OpenHead) : List OpenBlock → Prop
  | [] => h.isBranch = false
  | below :: _ => if h.isBranch then below.head.takesBranch = true else below.head.takesItems = true

end OpenHead

namespace OpenBlock

def Nested : List OpenBlock → Prop
  | [] => True
  | top :: rest => top.head.FitsOn rest ∧ Nested rest

def kinds : List OpenBlock → List BlockKind
  | [] => []
  | top :: rest => top.head.kind :: if top.head.isBranch then (kinds rest).tail else kinds rest

end OpenBlock

namespace Stack

def TakesItems (s : Stack) : Prop := ∀ top ∈ s.blocks.head?, top.head.takesItems = true

/-- What holds of every stack that comes up: its blocks are nested, and the innermost one takes
instructions. -/
structure Sound (s : Stack) : Prop where
  nested : OpenBlock.Nested s.blocks
  takesItems : s.TakesItems

def kinds (s : Stack) : List BlockKind := OpenBlock.kinds s.blocks

theorem sound_empty : empty.Sound := ⟨trivial, by simp [TakesItems, empty]⟩

@[simp] theorem kinds_empty : empty.kinds = [] := rfl

theorem add_kinds (t : Tree) (s : Stack) : (s.add t).kinds = s.kinds := by
  obtain ⟨blocks, root⟩ := s
  cases blocks <;> rfl

theorem Sound.add {s : Stack} (t : Tree) (h : s.Sound) : (s.add t).Sound := by
  obtain ⟨blocks, root⟩ := s
  cases blocks with
  | nil => exact ⟨h.nested, h.takesItems⟩
  | cons top rest =>
    refine ⟨⟨h.nested.1, h.nested.2⟩, ?_⟩
    intro b hb
    cases hb
    exact h.takesItems top rfl

theorem Sound.push {s : Stack} (head : OpenHead) (h : s.Sound) (root : head.isBranch = false)
    (items : head.takesItems = true) : (s.push head).Sound := by
  refine ⟨⟨?_, h.nested⟩, ?_⟩
  · cases hb : s.blocks with
    | nil => exact root
    | cons below rest =>
      simp only [OpenHead.FitsOn, root, Bool.false_eq_true, if_false]
      exact h.takesItems below (by rw [hb]; rfl)
  · intro b hb
    cases hb
    exact items

theorem push_kinds (s : Stack) (head : OpenHead) (root : head.isBranch = false) :
    (s.push head).kinds = head.kind :: s.kinds := by
  simp [kinds, push, OpenBlock.kinds, root]

theorem Sound.below {head : OpenHead} {body root : List Tree} {rest : List OpenBlock}
    (nested : OpenBlock.Nested (⟨head, body⟩ :: rest)) (plain : head.isBranch = false) :
    Sound ⟨rest, root⟩ := by
  refine ⟨nested.2, ?_⟩
  intro b hb
  cases rest with
  | nil => cases hb
  | cons below rest =>
    cases hb
    have fits := nested.1
    simpa [OpenHead.FitsOn, plain] using fits

theorem close_kinds (root : List Tree) (tail : Tail) (blocks : List OpenBlock) :
    (close root tail blocks).kinds = (OpenBlock.kinds blocks).tail := by
  induction blocks generalizing tail with
  | nil => rfl
  | cons top rest ih =>
    obtain ⟨head, body⟩ := top
    cases head with
    | or place call => simpa [close, OpenBlock.kinds, OpenHead.isBranch] using ih _
    | block => exact add_kinds _ _
    | repeated => exact add_kinds _ _
    | between => exact add_kinds _ _
    | macroDef => exact add_kinds _ _

theorem close_sound (root : List Tree) (tail : Tail) (blocks : List OpenBlock)
    (nested : OpenBlock.Nested blocks) : (close root tail blocks).Sound := by
  induction blocks generalizing tail with
  | nil => exact ⟨trivial, by simp [TakesItems, close]⟩
  | cons top rest ih =>
    obtain ⟨head, body⟩ := top
    cases head with
    | or place call => exact ih _ nested.2
    | block => exact (Sound.below nested rfl).add _
    | repeated => exact (Sound.below nested rfl).add _
    | between => exact (Sound.below nested rfl).add _
    | macroDef => exact (Sound.below nested rfl).add _

theorem close_length (root : List Tree) (tail : Tail) (top : OpenBlock) (rest : List OpenBlock) :
    (close root tail (top :: rest)).blocks.length ≤ rest.length := by
  induction rest generalizing tail top with
  | nil => obtain ⟨head, body⟩ := top; cases head <;> simp [close, add]
  | cons below rest ih =>
    obtain ⟨head, body⟩ := top
    cases head with
    | or place call => exact Nat.le_succ_of_le (ih _ below)
    | block | repeated | between | macroDef => simp [close, add]

theorem collapse_blocks (fuel : Nat) (s : Stack) (enough : s.blocks.length ≤ fuel) :
    (collapse fuel s).blocks = [] := by
  induction fuel generalizing s with
  | zero => exact List.length_eq_zero_iff.mp (Nat.le_zero.mp enough)
  | succ fuel ih =>
    obtain ⟨blocks, root⟩ := s
    cases blocks with
    | nil => rfl
    | cons top rest =>
      apply ih
      have shorter := close_length root .unclosed top rest
      exact Nat.le_trans shorter (Nat.le_of_succ_le_succ enough)

theorem closeAll_blocks (s : Stack) : s.closeAll.blocks = [] :=
  collapse_blocks _ _ (Nat.le_refl _)

theorem sound_of_blocks_nil {s : Stack} (h : s.blocks = []) : s.Sound :=
  ⟨by rw [h]; trivial, by simp [TakesItems, h]⟩

theorem Sound.startBetween {s : Stack} (place : Position) (h : s.Sound) :
    (s.startBetween place).Sound := by
  obtain ⟨blocks, root⟩ := s
  cases blocks with
  | nil => exact h
  | cons top rest =>
    obtain ⟨head, body⟩ := top
    cases head with
    | repeated start var alternates =>
      refine ⟨⟨?_, h.nested.2⟩, ?_⟩
      · have fits := h.nested.1
        cases rest with
        | nil => rfl
        | cons => exact fits
      · intro b hb
        cases hb
        rfl
    | block | between | or | macroDef => exact h

theorem Sound.pushBranch {s : Stack} (place : Position) (call : Option Call) (h : s.Sound)
    (allowed : ∀ top ∈ s.blocks.head?, top.head.kind.takesBranch = true)
    (inside : s.blocks ≠ []) : ((s.endBetween place).push (.or place call)).Sound := by
  obtain ⟨blocks, root⟩ := s
  cases blocks with
  | nil => exact absurd rfl inside
  | cons top rest =>
    have branches := allowed top rfl
    obtain ⟨head, body⟩ := top
    refine ⟨?_, by intro b hb; cases hb; rfl⟩
    cases head with
    | between _ start var rounds =>
      refine ⟨rfl, ?_, h.nested.2⟩
      have fits := h.nested.1
      cases rest with
      | nil => rfl
      | cons => exact fits
    | block => exact ⟨rfl, h.nested⟩
    | repeated => exact ⟨rfl, h.nested⟩
    | or _ test =>
      cases test with
      | none => cases branches
      | some => exact ⟨rfl, h.nested⟩
    | macroDef => cases branches

theorem pushBranch_kinds (s : Stack) (place : Position) (call : Option Call) :
    ((s.endBetween place).push (.or place call)).kinds = .ofBranch call :: s.kinds.tail := by
  obtain ⟨blocks, root⟩ := s
  cases blocks with
  | nil => rfl
  | cons top rest =>
    obtain ⟨head, body⟩ := top
    cases head <;> rfl

theorem step_of_objection_none {s : Stack} {i : Instruction} (h : s.Sound)
    (allowed : s.objection i = none) :
    BlockKind.step s.kinds i.op = some (s.take i).kinds ∧ (s.take i).Sound := by
  obtain ⟨place, op⟩ := i
  obtain ⟨blocks, root⟩ := s
  cases op with
  | leaf l => exact ⟨by rw [take, add_kinds]; rfl, h.add _⟩
  | opening o => exact ⟨by rw [take, push_kinds _ _ rfl]; rfl, h.push _ rfl rfl⟩
  | repeated var => exact ⟨by rw [take, push_kinds _ _ rfl]; rfl, h.push _ rfl rfl⟩
  | macroStart name => exact ⟨by rw [take, push_kinds _ _ rfl]; rfl, h.push _ rfl rfl⟩
  | close =>
    cases blocks with
    | nil => cases allowed
    | cons top rest =>
      exact ⟨by rw [take, close_kinds]; rfl, close_sound _ _ _ h.nested⟩
  | alternates =>
    cases blocks with
    | nil => cases allowed
    | cons top rest =>
      obtain ⟨head, body⟩ := top
      cases head with
      | repeated => exact ⟨rfl, h.startBetween place⟩
      | block | between | or | macroDef => cases allowed
  | or call =>
    cases blocks with
    | nil => cases allowed
    | cons top rest =>
      have branches : top.head.kind.takesBranch = true := by
        obtain ⟨head, body⟩ := top
        cases head with
        | or _ test => cases test with
          | none => cases allowed
          | some => rfl
        | macroDef => cases allowed
        | block | repeated | between => rfl
      refine ⟨?_, h.pushBranch place call (by intro b hb; cases hb; exact branches) (by simp)⟩
      rw [take, pushBranch_kinds]
      simp [BlockKind.step, kinds, OpenBlock.kinds, branches]
  | eof =>
    cases blocks with
    | nil => exact ⟨rfl, h⟩
    | cons top rest => cases allowed

theorem step_of_objection_some {s : Stack} {i : Instruction} {d : Diagnostic}
    (rejected : s.objection i = some d) : BlockKind.step s.kinds i.op = none := by
  obtain ⟨place, op⟩ := i
  obtain ⟨blocks, root⟩ := s
  cases op with
  | leaf l => cases rejected
  | opening o => cases rejected
  | repeated var => cases rejected
  | macroStart name => cases rejected
  | close =>
    cases blocks with
    | nil => rfl
    | cons => cases rejected
  | alternates =>
    cases blocks with
    | nil => rfl
    | cons top rest =>
      obtain ⟨head, body⟩ := top
      cases head with
      | repeated => cases rejected
      | or _ call => cases call <;> rfl
      | block | between | macroDef => rfl
  | or call =>
    cases blocks with
    | nil => rfl
    | cons top rest =>
      obtain ⟨head, body⟩ := top
      cases head with
      | or _ test => cases test with
        | none => rfl
        | some => cases rejected
      | macroDef => rfl
      | block | repeated | between => cases rejected
  | eof =>
    cases blocks with
    | nil => cases rejected
    | cons => rfl

theorem objection_report {s : Stack} {i : Instruction} {d : Diagnostic}
    (rejected : s.objection i = some d) :
    d.place = i.place ∧ d.typeName = some i.typeName ∧
      (d.fault = .compile .eofInBlock ↔ i.op = .eof) := by
  obtain ⟨place, op⟩ := i
  obtain ⟨blocks, root⟩ := s
  cases op with
  | leaf l => cases rejected
  | opening o => cases rejected
  | repeated var => cases rejected
  | macroStart name => cases rejected
  | close =>
    cases blocks with
    | nil => cases rejected; exact ⟨rfl, rfl, nofun, nofun⟩
    | cons => cases rejected
  | alternates =>
    cases blocks with
    | nil => cases rejected; exact ⟨rfl, rfl, nofun, nofun⟩
    | cons top rest =>
      obtain ⟨head, body⟩ := top
      cases head <;> cases rejected <;> exact ⟨rfl, rfl, nofun, nofun⟩
  | or call =>
    cases blocks with
    | nil => cases rejected; exact ⟨rfl, rfl, nofun, nofun⟩
    | cons top rest =>
      obtain ⟨head, body⟩ := top
      cases head with
      | or _ test => cases test <;> cases rejected; exact ⟨rfl, rfl, nofun, nofun⟩
      | macroDef => cases rejected; exact ⟨rfl, rfl, nofun, nofun⟩
      | block | repeated | between => cases rejected
  | eof =>
    cases blocks with
    | nil => cases rejected
    | cons => cases rejected; exact ⟨rfl, rfl, fun _ => rfl, fun _ => rfl⟩

end Stack

namespace Assembly

variable {a : Assembly} {i : Instruction}

theorem accept_complete (i : Instruction) (done : a.isComplete = true) :
    a.accept i = ({ a with count := a.count + 1 }, none) := by
  simp [accept, done]

theorem accept_allowed (going : a.isComplete = false) (allowed : a.stack.objection i = none) :
    a.accept i = (({ a with count := a.count + 1 } : Assembly).take i, none) := by
  simp [accept, going, allowed]

theorem accept_refused {d : Diagnostic} (strict : a.lenient = false) (going : a.isComplete = false)
    (rejected : a.stack.objection i = some d) :
    a.accept i = ({ a with count := a.count + 1 }, some d) := by
  simp [accept, going, rejected, strict]

theorem accept_noted {d : Diagnostic} (lenient : a.lenient = true) (going : a.isComplete = false)
    (rejected : a.stack.objection i = some d) :
    a.accept i =
      ({ ({ a with count := a.count + 1 } : Assembly).recover i with
          problems := a.problems ++ [d] }, none) := by
  simp [accept, going, rejected, lenient]

theorem take_eof (inside : i.op.isEof = false) : (a.take i).eof = a.eof := by
  obtain ⟨place, op⟩ := i
  cases op with
  | eof => cases inside
  | leaf | opening | repeated | alternates | or | macroStart | close => rfl

theorem recover_inside (inside : i.op.isEof = false) : a.recover i = a := by
  obtain ⟨place, op⟩ := i
  cases op with
  | eof => cases inside
  | leaf | opening | repeated | alternates | or | macroStart | close => rfl

theorem recover_eof (ends : i.op.isEof = true) : a.recover i = a.take i := by
  obtain ⟨place, op⟩ := i
  cases op with
  | eof => rfl
  | leaf | opening | repeated | alternates | or | macroStart | close => cases ends

theorem recover_lenient (a : Assembly) (i : Instruction) : (a.recover i).lenient = a.lenient := by
  obtain ⟨place, op⟩ := i
  cases op <;> rfl

theorem isComplete_of_eof (going : a.eof = none) : a.isComplete = false := by
  simp [isComplete, going]

theorem feed_cons {next : Assembly} (rest : List Instruction) (step : a.accept i = (next, none)) :
    a.feed (i :: rest) = next.feed rest := by
  rw [feed, step]

theorem accept_lenient (i : Instruction) (lenient : a.lenient = true) :
    ∃ next, a.accept i = (next, none) ∧ next.lenient = true ∧
      (next.problems = a.problems ∨
        ∃ d, a.stack.objection i = some d ∧ next.problems = a.problems ++ [d]) := by
  cases complete : a.isComplete with
  | true => exact ⟨_, accept_complete i complete, lenient, .inl rfl⟩
  | false =>
    cases objection : a.stack.objection i with
    | none => exact ⟨_, accept_allowed complete objection, lenient, .inl rfl⟩
    | some d =>
      refine ⟨_, accept_noted lenient complete objection, ?_, .inr ⟨d, rfl, rfl⟩⟩
      exact (recover_lenient _ i).trans lenient

end Assembly

end JsonTemplate

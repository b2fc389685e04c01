import JsonTemplate.Proofs.Assembly.Nesting
import Mathlib.Data.List.Forall2

namespace JsonTemplate

open JsonTemplate.Text

namespace Tree

mutual

/-- The instructions of a tree in the order of its source. The closing tag that an `.or` after the
part between rounds implies is none of them. -/
def linear : Tree → List Instruction
  | leaf place l => [⟨place, .leaf l⟩]
  | block place o body tail => ⟨place, .opening o⟩ :: linearAll body ++ linearTail tail
  | repeated place var body alternates tail =>
    ⟨place, .repeated var⟩ :: linearAll body ++ linearAlternates alternates ++ linearTail tail
  | macroDef place name body close =>
    ⟨place, .macroStart name⟩ :: linearAll body ++ (close.map (⟨·, .close⟩)).toList

def linearAll : List Tree → List Instruction
  | [] => []
  | t :: rest => linear t ++ linearAll rest

def linearTail : Tail → List Instruction
  | .unclosed => []
  | .closed place => [⟨place, .close⟩]
  | .or place call body tail => ⟨place, .or call⟩ :: linearAll body ++ linearTail tail

def linearAlternates : Alternates → List Instruction
  | .none => []
  | .between place body _ => ⟨place, .alternates⟩ :: linearAll body

end

@[simp] theorem linearAll_nil : linearAll [] = [] := rfl

@[simp] theorem linearAll_cons (t : Tree) (rest : List Tree) :
    linearAll (t :: rest) = linear t ++ linearAll rest := rfl

@[simp] theorem linearAll_append (front back : List Tree) :
    linearAll (front ++ back) = linearAll front ++ linearAll back := by
  induction front with
  | nil => rfl
  | cons t rest ih => simp [ih]

end Tree

def Template.linear (t : Template) : List Instruction :=
  Tree.linearAll t.body ++ (t.eof.map (⟨·, .eof⟩)).toList

def OpenBlock.linear (b : OpenBlock) : List Instruction :=
  match b.head with
  | .repeated place var alternates =>
    ⟨place, .repeated var⟩ :: Tree.linearAll b.body.reverse ++ Tree.linearAlternates alternates
  | .between place start var rounds =>
    ⟨start, .repeated var⟩ :: Tree.linearAll rounds.reverse
      ++ ⟨place, .alternates⟩ :: Tree.linearAll b.body.reverse
  | head => head.instruction :: Tree.linearAll b.body.reverse

def OpenBlock.linearAll : List OpenBlock → List Instruction
  | [] => []
  | top :: rest => linearAll rest ++ top.linear

def Stack.linear (s : Stack) : List Instruction :=
  Tree.linearAll s.root.reverse ++ OpenBlock.linearAll s.blocks

namespace Stack

@[simp] theorem linear_empty : empty.linear = [] := rfl

theorem add_linear (t : Tree) {s : Stack} (items : s.TakesItems) :
    (s.add t).linear = s.linear ++ t.linear := by
  obtain ⟨blocks, root⟩ := s
  cases blocks with
  | nil => simp [add, linear, OpenBlock.linearAll]
  | cons top rest =>
    have free := items top rfl
    obtain ⟨head, body⟩ := top
    cases head with
    | repeated place var alternates =>
      cases alternates with
      | none => simp [add, linear, OpenBlock.linearAll, OpenBlock.linear, Tree.linearAlternates]
      | between => cases free
    | block | between | or | macroDef =>
      simp [add, linear, OpenBlock.linearAll, OpenBlock.linear]

theorem push_linear (s : Stack) (head : OpenHead)
    (plain : (⟨head, []⟩ : OpenBlock).linear = [head.instruction]) :
    (s.push head).linear = s.linear ++ [head.instruction] := by
  simp [push, linear, OpenBlock.linearAll, plain]

/-- Closing a block moves its instructions into the tree that it becomes. An `.or` branch may only
come after a block that takes it, or it would be lost. -/
theorem close_linear (root : List Tree) (tail : Tail) (blocks : List OpenBlock)
    (nested : OpenBlock.Nested blocks) (inside : blocks ≠ [])
    (branch : ∀ place call body rest, tail = .or place call body rest →
      ∀ top ∈ blocks.head?, top.head.takesBranch = true) :
    (close root tail blocks).linear =
      linear ⟨blocks, root⟩ ++ Tree.linearTail tail := by
  -- The tail is general, since a branch becomes the tail of the block below it.
  induction blocks generalizing tail with
  | nil => exact absurd rfl inside
  | cons top rest ih =>
    obtain ⟨head, body⟩ := top
    cases head with
    | or place call =>
      obtain ⟨fits, nestedRest⟩ := nested
      cases rest with
      | nil => cases fits
      | cons below rest =>
        rw [close, ih _ nestedRest (by simp)]
        · simp [linear, OpenBlock.linearAll, OpenBlock.linear, OpenHead.instruction,
            Tree.linearTail]
        · intro _ _ _ _ _ b hb
          cases hb
          exact fits
    | block place o =>
      rw [close, add_linear _ (Sound.below nested rfl).takesItems]
      simp [linear, OpenBlock.linearAll, OpenBlock.linear, OpenHead.instruction, Tree.linear]
    | repeated place var alternates =>
      rw [close, add_linear _ (Sound.below nested rfl).takesItems]
      simp [linear, OpenBlock.linearAll, OpenBlock.linear, Tree.linear]
    | between place start var rounds =>
      rw [close, add_linear _ (Sound.below nested rfl).takesItems]
      simp [linear, OpenBlock.linearAll, OpenBlock.linear, Tree.linear, Tree.linearAlternates]
    | macroDef place name =>
      rw [close, add_linear _ (Sound.below nested rfl).takesItems]
      cases tail with
      | or _ _ _ _ => cases branch _ _ _ _ rfl _ rfl
      | unclosed | closed =>
        simp [linear, OpenBlock.linearAll, OpenBlock.linear, OpenHead.instruction, Tree.linear,
          closePlace, Tree.linearTail]

theorem collapse_linear (fuel : Nat) (s : Stack) (nested : OpenBlock.Nested s.blocks) :
    (collapse fuel s).linear = s.linear := by
  induction fuel generalizing s with
  | zero => rfl
  | succ fuel ih =>
    obtain ⟨blocks, root⟩ := s
    cases blocks with
    | nil => rfl
    | cons top rest =>
      have closed := close_linear root .unclosed (top :: rest) nested (by simp) (by simp)
      rw [collapse, ih _ (close_sound _ _ _ nested).nested, closed]
      simp [Tree.linearTail]

theorem closeAll_linear {s : Stack} (h : s.Sound) : s.closeAll.linear = s.linear :=
  collapse_linear _ _ h.nested

theorem startBetween_linear (s : Stack) (place : Position) (items : s.TakesItems)
    (allowed : s.objection ⟨place, .alternates⟩ = none) :
    (s.startBetween place).linear = s.linear ++ [⟨place, .alternates⟩] := by
  obtain ⟨blocks, root⟩ := s
  cases blocks with
  | nil => cases allowed
  | cons top rest =>
    have free := items top rfl
    obtain ⟨head, body⟩ := top
    cases head with
    | repeated start var alternates =>
      cases alternates with
      | none =>
        simp [startBetween, linear, OpenBlock.linearAll, OpenBlock.linear, Tree.linearAlternates]
      | between => cases free
    | block | between | or | macroDef => cases allowed

theorem endBetween_linear (s : Stack) (place : Position) :
    (s.endBetween place).linear = s.linear := by
  obtain ⟨blocks, root⟩ := s
  cases blocks with
  | nil => rfl
  | cons top rest =>
    obtain ⟨head, body⟩ := top
    cases head with
    | between =>
      simp [endBetween, linear, OpenBlock.linearAll, OpenBlock.linear, Tree.linearAlternates]
    | block | repeated | or | macroDef => rfl

theorem take_linear {s : Stack} {i : Instruction} (h : s.Sound) (allowed : s.objection i = none)
    (going : i.op.isEof = false) : (s.take i).linear = s.linear ++ [i] := by
  obtain ⟨place, op⟩ := i
  cases op with
  | leaf l => exact add_linear _ h.takesItems
  | opening o => exact push_linear _ _ rfl
  | repeated var => exact push_linear _ _ rfl
  | macroStart name => exact push_linear _ _ rfl
  | alternates => exact startBetween_linear _ _ h.takesItems allowed
  | or call => rw [take, push_linear _ _ rfl, endBetween_linear]; rfl
  | close =>
    obtain ⟨blocks, root⟩ := s
    cases blocks with
    | nil => cases allowed
    | cons top rest => exact close_linear _ _ _ h.nested (by simp) (by simp)
  | eof => cases going

end Stack

/-- The instructions up to the first end of the source, with that end. -/
def Instruction.upToEof : List Instruction → List Instruction
  | [] => []
  | i :: rest => if i.op.isEof then [i] else i :: upToEof rest

/-- An instruction, and whether it is allowed where it stands. -/
structure Verdict where
  instruction : Instruction
  allowed : Bool

namespace Verdict

/-- Whether the instruction gets into the tree. The end of the source always does. -/
def kept (v : Verdict) : Bool := v.allowed || v.instruction.op.isEof

def rejected (v : Verdict) : Bool := !v.allowed

/-- The verdicts on instructions up to the end of the source. What is rejected changes nothing for
what follows it. -/
def ofRun : List BlockKind → List Instruction → List Verdict
  | _, [] => []
  | kinds, i :: rest =>
    if i.op.isEof then [⟨i, kinds.isEmpty⟩]
    else
      match BlockKind.step kinds i.op with
      | some next => ⟨i, true⟩ :: ofRun next rest
      | none => ⟨i, false⟩ :: ofRun kinds rest

theorem ofRun_instructions (kinds : List BlockKind) (instructions : List Instruction) :
    (ofRun kinds instructions).map (·.instruction) = Instruction.upToEof instructions := by
  induction instructions generalizing kinds with
  | nil => rfl
  | cons i rest ih =>
    unfold ofRun Instruction.upToEof
    cases i.op.isEof with
    | true => rfl
    | false =>
      cases BlockKind.step kinds i.op with
      | none => exact congrArg (i :: ·) (ih kinds)
      | some next => exact congrArg (i :: ·) (ih next)

def keptIn (verdicts : List Verdict) : List Instruction :=
  (verdicts.filter kept).map instruction

/-- The instructions that are reported: those that are left out, and the end of the source where it
comes inside a block. -/
def rejectedIn (verdicts : List Verdict) : List Instruction :=
  (verdicts.filter rejected).map instruction

end Verdict

/-- A problem tells why an instruction was rejected. -/
def Instruction.ReportedBy (i : Instruction) (d : Diagnostic) : Prop :=
  d.place = i.place ∧ d.typeName = some i.typeName ∧
    (d.fault = .compile .eofInBlock ↔ i.op = .eof)

namespace Assembly

theorem feed_of_isComplete (a : Assembly) (instructions : List Instruction)
    (done : a.isComplete = true) :
    a.feed instructions = ({ a with count := a.count + instructions.length }, none) := by
  induction instructions generalizing a with
  | nil => rfl
  | cons i rest ih =>
    have next := ih { a with count := a.count + 1 } done
    rw [feed_cons rest (accept_complete i done), next]
    simp only [List.length_cons]
    congr 2
    omega

theorem finish_linear {a : Assembly} (h : a.stack.Sound) :
    a.finish.linear = a.stack.linear ++ (a.eof.map (⟨·, .eof⟩)).toList := by
  have closed := Stack.closeAll_linear h
  rw [Stack.linear, Stack.closeAll_blocks, OpenBlock.linearAll, List.append_nil] at closed
  simp only [finish, Template.linear, closed]

theorem feed_eof {a : Assembly} {i : Instruction} (rest : List Instruction) (h : a.stack.Sound)
    (ends : i.op.isEof = true) :
    ((a.take i).feed rest).1.finish.linear = a.stack.linear ++ [i] ∧
      ((a.take i).feed rest).1.problems = a.problems := by
  obtain ⟨place, op⟩ := i
  cases op with
  | eof =>
    have closed : (a.take ⟨place, .eof⟩).stack.Sound :=
      Stack.sound_of_blocks_nil (Stack.closeAll_blocks a.stack)
    rw [feed_of_isComplete _ _ rfl]
    refine ⟨?_, rfl⟩
    change (a.take ⟨place, .eof⟩).finish.linear = _
    rw [finish_linear closed]
    exact congrArg (· ++ [⟨place, .eof⟩]) (Stack.closeAll_linear h)
  | leaf | opening | repeated | alternates | or | macroStart | close => cases ends

theorem reported_eof {s : Stack} {i : Instruction} (h : s.Sound) (ends : i.op.isEof = true) :
    List.Forall₂ Instruction.ReportedBy (if s.kinds.isEmpty then [] else [i])
      (s.objection i).toList := by
  obtain ⟨place, op⟩ := i
  cases op with
  | eof =>
    cases objection : s.objection ⟨place, .eof⟩ with
    | none =>
      have empty : s.kinds = [] := by
        have known := (Stack.step_of_objection_none h objection).1
        cases kinds : s.kinds with
        | nil => rfl
        | cons => rw [kinds] at known; cases known
      simp [empty]
    | some d =>
      have full : s.kinds ≠ [] := by
        have unknown := Stack.step_of_objection_some objection
        intro empty
        rw [empty] at unknown
        cases unknown
      simp only [List.isEmpty_iff, full, if_false]
      exact .cons (Stack.objection_report objection) .nil
  | leaf | opening | repeated | alternates | or | macroStart | close => cases ends

theorem accept_eof {a : Assembly} {i : Instruction} (lenient : a.lenient = true)
    (going : a.eof = none) (ends : i.op.isEof = true) :
    a.accept i =
      (({ a with
          problems := a.problems ++ (a.stack.objection i).toList
          count := a.count + 1 } : Assembly).take i, none) := by
  have unfinished := isComplete_of_eof going
  cases objection : a.stack.objection i with
  | none => simp [accept_allowed unfinished objection]
  | some d =>
    rw [accept_noted lenient unfinished objection, recover_eof ends]
    rfl

/-- The run of a lenient assembly: what it keeps comes after what its stack has taken in, and what
it rejects is reported after its problems so far. -/
theorem feed_verdicts (a : Assembly) (instructions : List Instruction) (lenient : a.lenient = true)
    (going : a.eof = none) (h : a.stack.Sound) :
    let verdicts := Verdict.ofRun a.stack.kinds instructions
    (a.feed instructions).1.finish.linear = a.stack.linear ++ Verdict.keptIn verdicts ∧
      ∃ new, (a.feed instructions).1.problems = a.problems ++ new ∧
        List.Forall₂ Instruction.ReportedBy (Verdict.rejectedIn verdicts) new := by
  -- The state is general: an instruction that is taken in leaves another stack, a rejected one the
  -- same stack and a problem more.
  induction instructions generalizing a with
  | nil =>
    refine ⟨?_, [], by simp [feed], .nil⟩
    simp [feed, finish_linear h, going, Verdict.ofRun, Verdict.keptIn]
  | cons i rest ih =>
    cases ends : i.op.isEof with
    | true =>
      let counted : Assembly :=
        { a with problems := a.problems ++ (a.stack.objection i).toList, count := a.count + 1 }
      obtain ⟨linear, problems⟩ := feed_eof (a := counted) rest h ends
      rw [feed_cons rest (accept_eof lenient going ends)]
      refine ⟨?_, (a.stack.objection i).toList, problems, ?_⟩
      · rw [linear]
        simp [counted, Verdict.ofRun, Verdict.keptIn, Verdict.kept, ends]
      · have reports := reported_eof h ends
        cases kinds : a.stack.kinds <;> simpa [kinds, Verdict.ofRun, Verdict.rejectedIn,
          Verdict.rejected, ends] using reports
    | false =>
      have unfinished := isComplete_of_eof going
      cases objection : a.stack.objection i with
      | none =>
        obtain ⟨kinds, sound⟩ := Stack.step_of_objection_none h objection
        have next := ih (({ a with count := a.count + 1 } : Assembly).take i) lenient
          ((take_eof ends).trans going) sound
        obtain ⟨linear, new, problems, reports⟩ := next
        rw [feed_cons rest (accept_allowed unfinished objection)]
        simp only [Verdict.ofRun, ends, Bool.false_eq_true, if_false, kinds]
        refine ⟨?_, new, problems, reports⟩
        rw [linear]
        change (a.stack.take i).linear ++ _ = _
        rw [Stack.take_linear h objection ends]
        simp [Verdict.keptIn, Verdict.kept, take]
      | some d =>
        have unknown := Stack.step_of_objection_some objection
        have next :=
          ih { a with problems := a.problems ++ [d], count := a.count + 1 } lenient going h
        obtain ⟨linear, new, problems, reports⟩ := next
        rw [feed_cons rest (accept_noted lenient unfinished objection), recover_inside ends]
        simp only [Verdict.ofRun, ends, Bool.false_eq_true, if_false, unknown]
        refine ⟨?_, d :: new, by simpa using problems, ?_⟩
        · rw [linear]
          simp [Verdict.keptIn, Verdict.kept, ends]
        · exact .cons (Stack.objection_report objection) reports

theorem feed_lenient (a : Assembly) (instructions : List Instruction) (lenient : a.lenient = true) :
    (a.feed instructions).2 = none := by
  induction instructions generalizing a with
  | nil => rfl
  | cons i rest ih =>
    obtain ⟨next, step, still, -⟩ := accept_lenient i lenient
    rw [feed_cons rest step]
    exact ih next still

/-- The tree of a lenient assembly lists what was fed to it up to the end of the source, less what
was rejected. There is one problem for each instruction that was rejected, in order, and one more
where the end of the source came inside a block. -/
theorem lenient_feed_linear (instructions : List Instruction) :
    let run := (start true).feed instructions
    let verdicts := Verdict.ofRun [] instructions
    run.2 = none ∧ verdicts.map (·.instruction) = Instruction.upToEof instructions ∧
      run.1.finish.linear = Verdict.keptIn verdicts ∧
      List.Forall₂ Instruction.ReportedBy (Verdict.rejectedIn verdicts) run.1.problems := by
  obtain ⟨linear, new, problems, reports⟩ :=
    feed_verdicts (start true) instructions rfl rfl Stack.sound_empty
  refine ⟨feed_lenient _ _ rfl, Verdict.ofRun_instructions _ _, linear, ?_⟩
  rw [problems]
  exact reports

end Assembly

end JsonTemplate

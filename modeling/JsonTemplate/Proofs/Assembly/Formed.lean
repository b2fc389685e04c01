import JsonTemplate.Proofs.Assembly.Linear
import JsonTemplate.Proofs.Assembly.Onto

namespace JsonTemplate

open JsonTemplate.Text

def Tail.branch : Tail → Option Position
  | .or place _ _ _ => some place
  | _ => none

namespace Tree

mutual

/-- Trees as they come from a strict assembly. -/
inductive Formed : Tree → Prop where
  | leaf (place : Position) (l : Leaf) : Formed (leaf place l)
  | block (place : Position) (o : Opener) {body : List Tree} {tail : Tail} :
      FormedAll body → FormedTail tail → Formed (block place o body tail)
  | repeated (place : Position) (var : VarName) {body : List Tree} {alternates : Alternates}
      {tail : Tail} : FormedAll body → FormedAlternates tail.branch alternates →
      FormedTail tail → Formed (repeated place var body alternates tail)
  | macroDef (place close : Position) (name : String) {body : List Tree} :
      FormedAll body → Formed (macroDef place name body (some close))

inductive FormedAll : List Tree → Prop where
  | nil : FormedAll []
  | cons {t : Tree} {rest : List Tree} : Formed t → FormedAll rest → FormedAll (t :: rest)

inductive FormedTail : Tail → Prop where
  | closed (place : Position) : FormedTail (.closed place)
  | test (place : Position) (call : Call) {body : List Tree} {tail : Tail} :
      FormedAll body → FormedTail tail → FormedTail (.or place (some call) body tail)
  | last (place close : Position) {body : List Tree} :
      FormedAll body → FormedTail (.or place none body (.closed close))

/-- What is printed between rounds, before a branch at a place or before a closing tag. -/
inductive FormedAlternates : Option Position → Alternates → Prop where
  | none (branch : Option Position) : FormedAlternates branch .none
  | between (branch : Option Position) (place : Position) {body : List Tree} :
      FormedAll body → FormedAlternates branch (.between place body branch)

end

theorem formedAll_iff {items : List Tree} : FormedAll items ↔ ∀ t ∈ items, t.Formed := by
  induction items with
  | nil => exact ⟨fun _ => by simp, fun _ => .nil⟩
  | cons t rest ih =>
    constructor
    · rintro (_ | ⟨first, later⟩)
      simpa using ⟨first, ih.mp later⟩
    · intro all
      exact .cons (all t List.mem_cons_self)
        (ih.mpr fun other member => all other (List.mem_cons_of_mem _ member))

theorem formedAll_reverse {items : List Tree} :
    FormedAll items.reverse ↔ ∀ t ∈ items, t.Formed := by
  simp [formedAll_iff]

end Tree

namespace OpenHead

def branch : OpenHead → Option Position
  | or place _ => some place
  | _ => none

def Formed (next : Option Position) : OpenHead → Prop
  | repeated _ _ alternates => Tree.FormedAlternates next alternates
  | between _ _ _ rounds => ∀ t ∈ rounds, t.Formed
  | _ => True

end OpenHead

def OpenBlock.Formed : Option Position → List OpenBlock → Prop
  | _, [] => True
  | next, top :: rest =>
    top.head.Formed next ∧ (∀ t ∈ top.body, t.Formed) ∧ Formed top.head.branch rest

namespace Stack

/-- A stack whose trees are formed. -/
structure Formed (s : Stack) : Prop where
  root : ∀ t ∈ s.root, t.Formed
  blocks : OpenBlock.Formed none s.blocks

theorem formed_empty : empty.Formed := ⟨by simp [empty], trivial⟩

theorem Formed.add {s : Stack} {t : Tree} (formed : t.Formed) (h : s.Formed) :
    (s.add t).Formed := by
  obtain ⟨blocks, root⟩ := s
  cases blocks with
  | nil => exact ⟨by simpa [Stack.add, formed] using h.root, trivial⟩
  | cons top rest =>
    obtain ⟨head, items, below⟩ := h.blocks
    exact ⟨h.root, head, by simpa [formed] using items, below⟩

theorem Formed.push {s : Stack} {head : OpenHead} (plain : head.branch = none)
    (formed : head.Formed none) (h : s.Formed) : (s.push head).Formed :=
  ⟨h.root, formed, by simp, plain ▸ h.blocks⟩

theorem close_formed {root : List Tree} {tail : Tail} {blocks : List OpenBlock}
    (trees : ∀ t ∈ root, t.Formed) (formed : OpenBlock.Formed tail.branch blocks)
    (ends : Tree.FormedTail tail) (nested : OpenBlock.Nested blocks)
    (branch : ∀ place, tail.branch = some place →
      ∀ top ∈ blocks.head?, top.head.takesBranch = true) : (close root tail blocks).Formed := by
  -- The tail is general, since a branch becomes the tail of the block below it.
  induction blocks generalizing tail with
  | nil => exact ⟨trees, trivial⟩
  | cons top rest ih =>
    obtain ⟨head, body⟩ := top
    obtain ⟨headFormed, items, below⟩ := formed
    have inside := Tree.formedAll_reverse.mpr items
    cases head with
    | or place call =>
      refine ih below ?_ nested.2 fun _ _ b member => ?_
      · cases call with
        | some call => exact .test place call inside ends
        | none =>
          cases ends with
          | closed stop => exact .last place stop inside
          | test | last => cases branch _ rfl _ rfl
      · have fits := nested.1
        cases rest with
        | nil => cases member
        | cons first more =>
          cases member
          exact fits
    | block place o => exact Formed.add (.block place o inside ends) ⟨trees, below⟩
    | repeated place var alternates =>
      exact Formed.add (.repeated place var inside headFormed ends) ⟨trees, below⟩
    | between place start var rounds =>
      refine Formed.add (.repeated start var (Tree.formedAll_reverse.mpr headFormed) ?_ ends)
        ⟨trees, below⟩
      cases ends with
      | closed => exact .between none place inside
      | test | last => cases branch _ rfl _ rfl
    | macroDef place name =>
      refine Formed.add ?_ ⟨trees, below⟩
      cases ends with
      | closed stop => exact .macroDef place stop name inside
      | test | last => cases branch _ rfl _ rfl

theorem Formed.startBetween {s : Stack} (place : Position) (h : s.Formed) :
    (s.startBetween place).Formed := by
  obtain ⟨blocks, root⟩ := s
  cases blocks with
  | nil => exact h
  | cons top rest =>
    obtain ⟨-, items, below⟩ := h.blocks
    obtain ⟨head, body⟩ := top
    cases head with
    | repeated start var alternates => exact ⟨h.root, items, by simp, below⟩
    | block | between | or | macroDef => exact h

theorem Formed.pushBranch {s : Stack} (place : Position) (call : Option Call) (h : s.Formed)
    (items : s.TakesItems) : ((s.endBetween place).push (.or place call)).Formed := by
  obtain ⟨blocks, root⟩ := s
  cases blocks with
  | nil => exact ⟨h.root, trivial, by simp, trivial⟩
  | cons top rest =>
    have free := items top rfl
    obtain ⟨headFormed, body, below⟩ := h.blocks
    obtain ⟨head, body⟩ := top
    cases head with
    | between start begin var rounds =>
      have part := Tree.formedAll_reverse.mpr body
      exact ⟨h.root, trivial, by simp, .between _ start part, headFormed, below⟩
    | repeated start var alternates =>
      cases alternates with
      | none => exact ⟨h.root, trivial, by simp, .none _, body, below⟩
      | between => cases free
    | block | or | macroDef => exact ⟨h.root, trivial, by simp, trivial, body, below⟩

theorem Formed.take {s : Stack} {i : Instruction} (sound : s.Sound) (h : s.Formed)
    (going : i.op.isEof = false) : (s.take i).Formed := by
  obtain ⟨place, op⟩ := i
  cases op with
  | leaf l => exact h.add (.leaf place l)
  | opening o => exact h.push rfl trivial
  | repeated var => exact h.push rfl (.none _)
  | macroStart name => exact h.push rfl trivial
  | alternates => exact h.startBetween place
  | or call => exact h.pushBranch place call sound.takesItems
  | close => exact close_formed h.root h.blocks (.closed place) sound.nested (by nofun)
  | eof => cases going

end Stack

namespace Assembly

variable {a b : Assembly} {items : List Instruction}

theorem accept_count (a : Assembly) (i : Instruction) : (a.accept i).1.count = a.count + 1 := by
  rw [accept]
  split
  · rfl
  · split
    · rfl
    · split
      · obtain ⟨place, op⟩ := i
        cases op <;> rfl
      · rfl

theorem feed_count (fed : a.feed items = (b, none)) : b.count = a.count + items.length := by
  induction items generalizing a with
  | nil =>
    cases fed
    rfl
  | cons i rest ih =>
    have counted := accept_count a i
    rcases step : a.accept i with ⟨next, _ | d⟩
    · rw [step] at counted
      rw [feed_cons rest step] at fed
      rw [ih fed, counted, List.length_cons]
      omega
    · simp [feed, step] at fed

theorem Going.feed_formed (h : a.Going) (formed : a.stack.Formed)
    (inside : ∀ i ∈ items, i.op.isEof = false) (fed : a.feed items = (b, none)) :
    b.stack.Formed ∧ b.Going := by
  induction items generalizing a with
  | nil =>
    cases fed
    exact ⟨formed, h⟩
  | cons i rest ih =>
    rcases step : a.accept i with ⟨next, _ | d⟩
    · rw [feed_cons rest step] at fed
      have first := inside i List.mem_cons_self
      obtain ⟨-, going, rfl⟩ := h.accept first step
      exact ih going (formed.take h.sound first)
        (fun j member => inside j (List.mem_cons_of_mem _ member)) fed
    · simp [feed, step] at fed

theorem formed_of_feed {stop : Position} (inside : ∀ i ∈ items, i.op.isEof = false)
    (fed : (start false).feed (items ++ [⟨stop, .eof⟩]) = (b, none)) :
    Tree.FormedAll b.finish.body := by
  obtain ⟨a, first, last⟩ := feed_split fed
  obtain ⟨formed, going⟩ := going_start.feed_formed Stack.formed_empty inside first
  rw [(going.feed_eof last).2]
  exact Tree.formedAll_reverse.mpr formed.root

end Assembly

namespace BlockKind

/-- The place of the closing tag that an instruction implies, if it does. -/
def impliedBy (kinds : List BlockKind) (i : Instruction) : List Position :=
  match i.op, kinds with
  | .or _, between :: _ => [i.place]
  | _, _ => []

/-- The places of the closing tags that instructions imply. -/
def implied : List BlockKind → List Instruction → List Position
  | _, [] => []
  | kinds, i :: rest => impliedBy kinds i ++ implied ((step kinds i.op).getD kinds) rest

end BlockKind

namespace Tree

mutual

/-- The places of the closing tags that a tree has and its source does not. -/
def implied : Tree → List Position
  | leaf _ _ => []
  | block _ _ body tail => impliedAll body ++ impliedTail tail
  | repeated _ _ body alternates tail =>
    impliedAll body ++ impliedAlternates alternates ++ impliedTail tail
  | macroDef _ _ body _ => impliedAll body

def impliedAll : List Tree → List Position
  | [] => []
  | t :: rest => implied t ++ impliedAll rest

def impliedTail : Tail → List Position
  | .unclosed => []
  | .closed _ => []
  | .or _ _ body tail => impliedAll body ++ impliedTail tail

def impliedAlternates : Alternates → List Position
  | .none => []
  | .between _ body close => impliedAll body ++ close.toList

end

section

variable {kinds : List BlockKind} {kind : BlockKind} {rest : List Instruction}

theorem implied_or (takes : kind.takesBranch = true) (place : Position) (call : Option Call) :
    BlockKind.implied (kind :: kinds) (⟨place, .or call⟩ :: rest) =
      (if kind = .between then [place] else []) ++
        BlockKind.implied (.ofBranch call :: kinds) rest := by
  cases kind <;> first | rfl | cases takes

theorem implied_close (place : Position) :
    BlockKind.implied (kind :: kinds) (⟨place, .close⟩ :: rest) = BlockKind.implied kinds rest :=
  rfl

end

mutual

theorem Formed.implied {kinds : List BlockKind} {rest : List Instruction} {t : Tree} : t.Formed →
    BlockKind.implied kinds (t.linear ++ rest) = t.implied ++ BlockKind.implied kinds rest
  | .leaf _ _ => rfl
  | .block place o body tail => by
    have opened (more : List Instruction) :
        BlockKind.implied kinds (⟨place, .opening o⟩ :: more) =
          BlockKind.implied (.branching :: kinds) more := rfl
    have branches : BlockKind.branching.takesBranch = true := rfl
    simp [linear, opened, body.implied, tail.implied branches, Tree.implied]
  | .repeated place var body alternates tail => by
    have opened (more : List Instruction) :
        BlockKind.implied kinds (⟨place, .repeated var⟩ :: more) =
          BlockKind.implied (.rounds :: kinds) more := rfl
    cases alternates with
    | none =>
      have branches : BlockKind.rounds.takesBranch = true := rfl
      simp [linear, opened, body.implied, tail.implied branches, Tree.implied, linearAlternates,
        impliedAlternates]
    | between _ start part =>
      have turned (more : List Instruction) :
          BlockKind.implied (.rounds :: kinds) (⟨start, .alternates⟩ :: more) =
            BlockKind.implied (.between :: kinds) more := rfl
      have branches : BlockKind.between.takesBranch = true := rfl
      simp [linear, opened, turned, body.implied, part.implied, tail.implied branches,
        Tree.implied, linearAlternates, impliedAlternates]
  | .macroDef place close name body => by
    have opened (more : List Instruction) :
        BlockKind.implied kinds (⟨place, .macroStart name⟩ :: more) =
          BlockKind.implied (.macroBody :: kinds) more := rfl
    simp [linear, opened, implied_close, body.implied, Tree.implied]

theorem FormedAll.implied {kinds : List BlockKind} {rest : List Instruction} {items : List Tree} :
    FormedAll items → BlockKind.implied kinds (linearAll items ++ rest) =
      impliedAll items ++ BlockKind.implied kinds rest
  | .nil => rfl
  | .cons first later => by
    simp [impliedAll, first.implied, later.implied]

theorem FormedTail.implied {kinds : List BlockKind} {kind : BlockKind} {rest : List Instruction}
    {tail : Tail} (takes : kind.takesBranch = true) : FormedTail tail →
    BlockKind.implied (kind :: kinds) (linearTail tail ++ rest) =
      (if kind = .between then tail.branch.toList else []) ++ impliedTail tail ++
        BlockKind.implied kinds rest
  | .closed place => by
    simp [linearTail, implied_close, Tail.branch, impliedTail]
  | .test place call body tail => by
    have branches : BlockKind.branching.takesBranch = true := rfl
    simp [linearTail, implied_or takes, BlockKind.ofBranch, body.implied, tail.implied branches,
      Tail.branch, impliedTail]
  | .last place close body => by
    simp [linearTail, implied_or takes, implied_close, BlockKind.ofBranch, body.implied,
      Tail.branch, impliedTail]

end

end Tree

end JsonTemplate

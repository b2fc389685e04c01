import JsonTemplate.Expr.Program
import JsonTemplate.Proofs.Expr.Postfix
import Mathlib.Data.List.Forall2

namespace JsonTemplate.Expr

def Token.weight : Token → Int
  | .op .leftParen => 1
  | .op .rightParen => -1
  | _ => 0

/-- The number of parentheses that are open after some tokens. -/
def depth (tokens : List Token) : Int := tokens.foldl (fun opened t => opened + t.weight) 0

@[simp] theorem depth_nil : depth [] = 0 := rfl

@[simp] theorem depth_concat (tokens : List Token) (t : Token) :
    depth (tokens ++ [t]) = depth tokens + t.weight := by
  simp [depth]

/-- Tokens break between those read and those to come: at a parenthesis that closes none, at a
semicolon inside of one, or at the end inside of one. -/
inductive Breaks (read : List Token) : List Token → Mismatch → Prop where
  | closing {rest : List Token} : depth read = 0 → Breaks read (.op .rightParen :: rest) .right
  | dividing {rest : List Token} : 0 < depth read → Breaks read (.op .semicolon :: rest) .left
  | ending : 0 < depth read → Breaks read [] .left

/-- Tokens that come after others do not break. -/
def Unbroken (read tokens : List Token) : Prop :=
  ∀ front rest m, tokens = front ++ rest → ¬Breaks (read ++ front) rest m

/-- Tokens that come after others break, and this is their first break from the left. -/
def FirstBreak (read tokens : List Token) (m : Mismatch) : Prop :=
  ∃ front rest, tokens = front ++ rest ∧ Breaks (read ++ front) rest m ∧
    ∀ earlier later n, tokens = earlier ++ later → Breaks (read ++ earlier) later n →
      front.length ≤ earlier.length

theorem Breaks.unique {read rest : List Token} {m n : Mismatch} (first : Breaks read rest m)
    (second : Breaks read rest n) : m = n := by
  cases first <;> cases second <;> rfl

section

variable {read rest : List Token} {t : Token} {m n : Mismatch}

theorem FirstBreak.unique (first : FirstBreak read rest m) (second : FirstBreak read rest n) :
    m = n := by
  obtain ⟨front, back, whole, breaks, least⟩ := first
  obtain ⟨front', back', whole', breaks', least'⟩ := second
  have size : front.length = front'.length :=
    Nat.le_antisymm (least _ _ _ whole' breaks') (least' _ _ _ whole breaks)
  obtain ⟨rfl, rfl⟩ := List.append_inj (whole.symm.trans whole') size
  exact breaks.unique breaks'

theorem FirstBreak.not_unbroken (h : FirstBreak read rest m) : ¬Unbroken read rest := by
  obtain ⟨front, back, whole, breaks, -⟩ := h
  exact fun unbroken => unbroken front back m whole breaks

theorem FirstBreak.here (h : Breaks read rest m) : FirstBreak read rest m :=
  ⟨[], rest, rfl, by rwa [List.append_nil], fun _ _ _ _ _ => Nat.zero_le _⟩

theorem Unbroken.cons (here : ∀ m, ¬Breaks read (t :: rest) m)
    (later : Unbroken (read ++ [t]) rest) : Unbroken read (t :: rest) := by
  intro front back m whole breaks
  cases front with
  | nil =>
    rw [List.append_nil, ← whole.trans (List.nil_append _)] at breaks
    exact here m breaks
  | cons u front =>
    obtain ⟨rfl, tail⟩ := List.cons.inj whole
    rw [List.append_cons] at breaks
    exact later front back m tail breaks

theorem FirstBreak.cons (here : ∀ m, ¬Breaks read (t :: rest) m)
    (later : FirstBreak (read ++ [t]) rest m) : FirstBreak read (t :: rest) m := by
  obtain ⟨front, back, rfl, breaks, least⟩ := later
  refine ⟨t :: front, back, rfl, by rwa [List.append_cons], fun earlier later n whole other => ?_⟩
  cases earlier with
  | nil =>
    rw [List.append_nil, ← whole.trans (List.nil_append _)] at other
    exact absurd other (here n)
  | cons u earlier =>
    obtain ⟨rfl, tail⟩ := List.cons.inj whole
    rw [List.append_cons] at other
    exact Nat.succ_le_succ (least earlier later n tail other)

end

theorem Mismatch.message_injective {m n : Mismatch} (h : m.message = n.message) : m = n := by
  cases m <;> cases n <;> first | rfl | exact absurd h (by decide)

def Token.divides (depth : Int) : Token → Bool
  | .op .semicolon => true
  | .op .comma => depth = 0
  | _ => false

theorem Token.eq_of_divides {depth : Int} {t : Token} (h : t.divides depth = true) :
    t = .op .semicolon ∨ t = .op .comma ∧ depth = 0 := by
  cases t with
  | op o =>
    cases o with
    | semicolon => exact .inl rfl
    | comma => exact .inr ⟨rfl, of_decide_eq_true h⟩
    | _ => cases h
  | _ => cases h

/-- The tokens between the ends of statements. -/
def parts (depth : Int) : List Token → List (List Token)
  | [] => [[]]
  | t :: rest =>
    let later := parts (depth + t.weight) rest
    if t.divides depth then [] :: later else later.modifyHead (t :: ·)

def Token.isGrouping : Token → Bool
  | .op .leftParen | .op .rightParen | .op .comma | .op .semicolon => true
  | _ => false

/-- Whether a token is an operand or marks where arguments begin. -/
def Token.isFixed : Token → Bool
  | .op _ | .call _ => false
  | _ => true

/-- What a token puts into a statement: itself unless it only groups, and a mark before a call. -/
def Token.placed : Token → List Token
  | .call f => [.args, .call f]
  | t => if t.isGrouping then [] else [t]

/-- What a token puts into a statement at the place where it is written. -/
def Token.placedHere : Token → List Token
  | .call _ => [.args]
  | .op _ => []
  | t => [t]

/-- A statement has the tokens that are written for it, and a mark for each call. Operands, and
marks of arguments where calls are written, are in the order in which they are written. -/
structure Rearranges (written statement : List Token) : Prop where
  same : statement.Perm (written.flatMap Token.placed)
  order : statement.filter Token.isFixed = written.flatMap Token.placedHere

theorem Token.eq_of_isOp {o : Operator} {t : Token} (h : t.isOp o = true) : t = .op o := by
  cases t with
  | op p => exact congrArg Token.op (of_decide_eq_true h)
  | _ => cases h

theorem Token.weight_eq_zero {t : Token} (h : t.isGrouping = false) : t.weight = 0 := by
  cases t with
  | op o => cases o <;> first | rfl | cases h
  | _ => rfl

theorem Operator.operates {o : Operator} (h : (Token.op o).isGrouping = false) :
    o.isUnary = true ∨ o.isBinary = true := by
  cases o <;> first | exact .inl rfl | exact .inr rfl | cases h

theorem Token.placed_eq_nil_iff {t : Token} : t.placed = [] ↔ t.isGrouping = true := by
  cases t with
  | op o => cases o <;> simp [placed, isGrouping]
  | _ => simp [placed, isGrouping]

theorem placed_eq_nil_iff {written : List Token} :
    written.flatMap Token.placed = [] ↔ written.any (!·.isGrouping) = false := by
  simp [Token.placed_eq_nil_iff]

namespace Yard

def opened (y : Yard) : Nat := y.waiting.countP (·.isOp .leftParen)

def CanWait (t : Token) : Prop :=
  t = .op .leftParen ∨ t.isFixed = false ∧ t.isGrouping = false

/-- The state holds what is written for the statement so far: part of it is there, and the rest
waits. -/
structure Holds (y : Yard) (written : List Token) : Prop where
  same : (y.output ++ y.waiting.filter (!·.isGrouping)).Perm (written.flatMap Token.placed)
  order : y.output.reverse.filter Token.isFixed = written.flatMap Token.placedHere
  waits : ∀ t ∈ y.waiting, CanWait t

theorem holds_nil (statements : List (List Token)) : Holds ⟨[], [], statements⟩ [] :=
  ⟨.nil, rfl, nofun⟩

section

variable {output waiting moved rest written : List Token} {statements : List (List Token)}

theorem filter_isFixed_waiting (h : ∀ t ∈ waiting, CanWait t) :
    waiting.filter Token.isFixed = [] := by
  refine List.filter_eq_nil_iff.mpr fun t member => ?_
  rcases h t member with rfl | ⟨moves, -⟩
  · exact Bool.false_ne_true
  · rw [moves]
    exact Bool.false_ne_true

theorem filter_isGrouping_waiting (h : ∀ t ∈ waiting, CanWait t)
    (free : ∀ t ∈ waiting, t.isOp .leftParen = false) :
    waiting.filter (!·.isGrouping) = waiting := by
  refine List.filter_eq_self.mpr fun t member => ?_
  rcases h t member with rfl | ⟨-, stays⟩
  · cases free _ member
  · rw [stays]
    rfl

theorem Holds.move (h : Holds ⟨output, moved ++ rest, statements⟩ written)
    (free : ∀ t ∈ moved, t.isOp .leftParen = false) :
    Holds ⟨moved.reverse ++ output, rest, statements⟩ written := by
  obtain ⟨same, order, waits⟩ := h
  have waitsMoved : ∀ t ∈ moved, CanWait t := fun t member =>
    waits t (List.mem_append_left _ member)
  refine ⟨?_, ?_, fun t member => waits t (List.mem_append_right _ member)⟩
  · refine List.Perm.trans ?_ same
    rw [List.filter_append, filter_isGrouping_waiting waitsMoved free, ← List.append_assoc]
    refine List.Perm.append_right _ ?_
    exact (List.Perm.append_right _ (List.reverse_perm moved)).trans List.perm_append_comm
  · rw [List.reverse_append, List.reverse_reverse, List.filter_append,
      filter_isFixed_waiting waitsMoved, List.append_nil]
    exact order

theorem Holds.unwrap (h : Holds ⟨output, .op .leftParen :: rest, statements⟩ written) :
    Holds ⟨output, rest, statements⟩ (written ++ [.op .rightParen]) := by
  obtain ⟨same, order, waits⟩ := h
  refine ⟨?_, ?_, fun t member => waits t (List.mem_cons_of_mem _ member)⟩
  · simpa [Token.placed, Token.isGrouping] using same
  · simpa [Token.placedHere] using order

theorem Holds.skip (h : Holds ⟨output, waiting, statements⟩ written) {t : Token}
    (nothing : t.placed = []) (nowhere : t.placedHere = []) :
    Holds ⟨output, waiting, statements⟩ (written ++ [t]) :=
  ⟨by simpa [nothing] using h.same, by simpa [nowhere] using h.order, h.waits⟩

theorem Holds.push (h : Holds ⟨output, waiting, statements⟩ written) {t : Token}
    (fixed : t.isFixed = true) :
    Holds ⟨t :: output, waiting, statements⟩ (written ++ [t]) := by
  obtain ⟨same, order, waits⟩ := h
  have placed : t.placed = [t] := by cases t <;> first | rfl | cases fixed
  have here : t.placedHere = [t] := by cases t <;> first | rfl | cases fixed
  refine ⟨?_, ?_, waits⟩
  · rw [List.flatMap_append, List.flatMap_singleton, placed, List.cons_append]
    exact (same.cons t).trans (List.perm_append_singleton _ _).symm
  · rw [List.reverse_cons, List.filter_append, order, List.flatMap_append, List.flatMap_singleton,
      here, List.filter_singleton, fixed]
    rfl

theorem Holds.call (h : Holds ⟨output, waiting, statements⟩ written) (f : Function) :
    Holds ⟨.args :: output, .call f :: waiting, statements⟩ (written ++ [.call f]) := by
  obtain ⟨same, order, waits⟩ := h
  refine ⟨?_, by simp [order, Token.isFixed, Token.placedHere], fun t member => ?_⟩
  · have calls : (Token.call f).placed = [.args, .call f] := rfl
    rw [List.flatMap_append, List.flatMap_singleton, calls,
      List.filter_cons_of_pos (by rfl), List.cons_append]
    exact ((List.perm_middle.trans (same.cons _)).cons _).trans
      (@List.perm_append_comm _ [_, _] _)
  · rcases List.mem_cons.mp member with rfl | member
    · exact .inr ⟨rfl, rfl⟩
    · exact waits t member

theorem Holds.wrap (h : Holds ⟨output, waiting, statements⟩ written) :
    Holds ⟨output, .op .leftParen :: waiting, statements⟩ (written ++ [.op .leftParen]) := by
  obtain ⟨same, order, waits⟩ := h
  refine ⟨?_, ?_, fun t member => ?_⟩
  · simpa [Token.placed, Token.isGrouping] using same
  · simpa [Token.placedHere] using order
  · rcases List.mem_cons.mp member with rfl | member
    · exact .inl rfl
    · exact waits t member

theorem Holds.wait (h : Holds ⟨output, waiting, statements⟩ written) {o : Operator}
    (other : (Token.op o).isGrouping = false) :
    Holds ⟨output, .op o :: waiting, statements⟩ (written ++ [.op o]) := by
  obtain ⟨same, order, waits⟩ := h
  have placed : (Token.op o).placed = [.op o] := by simp [Token.placed, other]
  refine ⟨?_, by simpa [Token.placedHere] using order, fun t member => ?_⟩
  · rw [List.flatMap_append, List.flatMap_singleton, placed,
      List.filter_cons_of_pos (by simp [other])]
    exact (List.perm_middle.trans (same.cons _)).trans (List.perm_append_singleton _ _).symm
  · rcases List.mem_cons.mp member with rfl | member
    · exact .inr ⟨rfl, other⟩
    · exact waits t member

end

section

variable {y next : Yard} {read rest written : List Token} {t : Token} {m : Mismatch}

theorem release_eq (goes : Token → Bool) (output waiting : List Token) :
    release goes output waiting =
      ((waiting.takeWhile goes).reverse ++ output, waiting.dropWhile goes) := by
  induction waiting generalizing output with
  | nil => rfl
  | cons top rest ih =>
    rw [release, List.takeWhile_cons, List.dropWhile_cons]
    cases goes top with
    | true => simp [ih]
    | false => rfl

theorem released_free {goes : Token → Bool} (free : ∀ t, goes t = true → t.isOp .leftParen = false)
    (waiting : List Token) : ∀ t ∈ waiting.takeWhile goes, t.isOp .leftParen = false :=
  fun t member => free t (List.all_eq_true.mp List.all_takeWhile t member)

theorem countP_released {goes : Token → Bool}
    (free : ∀ t, goes t = true → t.isOp .leftParen = false) (output waiting : List Token) :
    (release goes output waiting).2.countP (·.isOp .leftParen) =
      waiting.countP (·.isOp .leftParen) := by
  have none : (waiting.takeWhile goes).countP (·.isOp .leftParen) = 0 :=
    List.countP_eq_zero.mpr fun t member => by
      rw [released_free free waiting t member]
      exact Bool.false_ne_true
  rw [release_eq]
  conv_rhs => rw [← List.takeWhile_append_dropWhile (p := goes) (l := waiting),
    List.countP_append, none, Nat.zero_add]

theorem Holds.released {goes : Token → Bool} (h : y.Holds written)
    (free : ∀ t, goes t = true → t.isOp .leftParen = false) :
    Holds ⟨(release goes y.output y.waiting).1, (release goes y.output y.waiting).2, y.statements⟩
      written := by
  rw [release_eq]
  refine Holds.move ?_ (released_free free y.waiting)
  rw [List.takeWhile_append_dropWhile]
  exact h

theorem free_of_isReleased (t : Token) (goes : isReleased t = true) :
    t.isOp .leftParen = false := by
  cases t with
  | op o => simpa [isReleased, Token.isOp] using goes
  | _ => rfl

theorem free_of_yieldsTo {o : Operator} (t : Token) (goes : yieldsTo o t = true) :
    t.isOp .leftParen = false := by
  cases t with
  | op p =>
    rw [yieldsTo, Bool.and_eq_true] at goes
    simpa [Token.isOp] using goes.1
  | _ => rfl

theorem drain_eq (output waiting : List Token) :
    drain output waiting =
      if waiting.countP (·.isOp .leftParen) = 0 then .ok (waiting.reverse ++ output)
      else .error .left := by
  induction waiting generalizing output with
  | nil => rfl
  | cons top rest ih =>
    rw [drain, List.countP_cons]
    cases top.isOp .leftParen with
    | true => simp
    | false => simp [ih]

theorem endStatement_eq (y : Yard) :
    y.endStatement =
      if y.opened = 0 then
        .ok ⟨[], [], y.statements ++
          if (y.waiting.reverse ++ y.output).isEmpty then [] else [y.output.reverse ++ y.waiting]⟩
      else .error .left := by
  rw [endStatement, drain_eq, opened]
  split
  · simp only [Except.map]
    cases (y.waiting.reverse ++ y.output).isEmpty <;> simp
  · rfl

theorem top_released (goes : Token → Bool) (output waiting : List Token) :
    ∀ top ∈ (release goes output waiting).2.head?, goes top = false := by
  intro top first
  have stays := List.head?_dropWhile_not goes waiting
  rw [release_eq] at first
  rwa [first] at stays

theorem close_cases (h : y.Holds written) :
    (y.opened = 0 ∧ y.close = .error .right) ∨
      ∃ next, y.close = .ok next ∧ y.opened = next.opened + 1 ∧
        next.statements = y.statements ∧ next.Holds (written ++ [.op .rightParen]) := by
  have moves (t : Token) (goes : (!t.isOp .leftParen) = true) : t.isOp .leftParen = false :=
    Bool.not_eq_true' _ ▸ goes
  have same := countP_released moves y.output y.waiting
  have held := h.released moves
  have ended := top_released (fun t => !t.isOp .leftParen) y.output y.waiting
  rw [close]
  generalize release (fun t => !t.isOp .leftParen) y.output y.waiting = left at same held ended
  obtain ⟨output, _ | ⟨top, rest⟩⟩ := left
  · exact .inl ⟨same.symm, rfl⟩
  · have opens : top.isOp .leftParen = true := by simpa using ended top rfl
    obtain rfl := Token.eq_of_isOp opens
    have unwrapped := held.unwrap
    have size : y.opened = rest.countP (·.isOp .leftParen) + 1 :=
      same.symm.trans (List.countP_cons_of_pos rfl)
    refine .inr ?_
    -- A call that waits under the parenthesis goes with it.
    cases rest with
    | nil => exact ⟨_, rfl, size, rfl, unwrapped⟩
    | cons before others =>
      cases before with
      | call f =>
        have noParen : ∀ t ∈ [Token.call f], t.isOp .leftParen = false := fun t member => by
          rw [List.mem_singleton.mp member]
          rfl
        exact ⟨_, rfl, size, rfl, Holds.move unwrapped noParen⟩
      | _ => exact ⟨_, rfl, size, rfl, unwrapped⟩

theorem step_divides (ends : t.divides y.opened = true) : y.step t = y.endStatement := by
  cases t with
  | op o =>
    cases o with
    | semicolon => rfl
    | comma =>
      have none : y.waiting.any (·.isOp .leftParen) = false := by
        have outside : (y.opened : Int) = 0 := of_decide_eq_true ends
        refine List.any_eq_false.mpr (List.countP_eq_zero.mp ?_)
        exact Int.ofNat_eq_zero.mp outside
      rw [step, none]
      rfl
    | _ => cases ends
  | _ => cases ends

theorem step_stays (h : y.Holds written) (stays : t.divides y.opened = false)
    (other : t ≠ .op .rightParen) :
    ∃ next, y.step t = .ok next ∧ next.statements = y.statements ∧
      (next.opened : Int) = y.opened + t.weight ∧ next.Holds (written ++ [t]) := by
  cases t with
  | call f => exact ⟨_, rfl, rfl, by simp [opened, Token.isOp, Token.weight], h.call f⟩
  | op o =>
    cases grouping : (Token.op o).isGrouping with
    | false =>
      have weight : (Token.op o).weight = 0 := Token.weight_eq_zero grouping
      refine ⟨_, step_operation (Operator.operates grouping) y, rfl, ?_, ?_⟩
      · have plain : (Token.op o).isOp .leftParen = false := by
          cases o <;> first | rfl | cases grouping
        simp [opened, plain, weight, countP_released free_of_yieldsTo]
      · exact (h.released free_of_yieldsTo).wait grouping
    | true =>
      cases o with
      | leftParen => exact ⟨_, rfl, rfl, by simp [opened, Token.isOp, Token.weight], h.wrap⟩
      | comma =>
        have inside : y.waiting.any (·.isOp .leftParen) = true := by
          have open' : y.waiting.countP (·.isOp .leftParen) ≠ 0 := by
            simpa [Token.divides, opened] using stays
          obtain ⟨t, member, opens⟩ := List.countP_pos_iff.mp (Nat.pos_of_ne_zero open')
          exact List.any_eq_true.mpr ⟨t, member, opens⟩
        have released : y.step (.op .comma) = .ok { y with
            output := (release isReleased y.output y.waiting).1
            waiting := (release isReleased y.output y.waiting).2 } := by
          rw [step, if_pos inside]
        refine ⟨_, released, rfl, ?_, (h.released free_of_isReleased).skip rfl rfl⟩
        simp [opened, Token.weight, countP_released free_of_isReleased]
      | semicolon => cases stays
      | rightParen => exact absurd rfl other
      | _ => cases grouping
  | _ => exact ⟨_, rfl, rfl, (Int.add_zero _).symm, h.push rfl⟩

def Finishes (written : List (List Token)) (statements : List (List Token)) : Prop :=
  List.Forall₂ Rearranges (written.filter fun tokens => tokens.any (!·.isGrouping)) statements

theorem endStatement_cases (h : y.Holds written) :
    0 < y.opened ∧ y.endStatement = .error .left ∨
      y.opened = 0 ∧ ∃ new, y.endStatement = .ok ⟨[], [], y.statements ++ new⟩ ∧
        Finishes [written] new := by
  rw [endStatement_eq]
  rcases Nat.eq_zero_or_pos y.opened with none | some'
  · refine .inr ⟨none, _, if_pos none, ?_⟩
    have free : ∀ t ∈ y.waiting, t.isOp .leftParen = false := fun t member =>
      Bool.eq_false_iff.mpr (List.countP_eq_zero.mp none t member)
    have same := h.same
    rw [filter_isGrouping_waiting h.waits free] at same
    cases any : written.any (!·.isGrouping) with
    | false =>
      rw [placed_eq_nil_iff.mpr any, List.perm_nil, List.append_eq_nil_iff] at same
      simp [Finishes, any, same]
    | true =>
      have some' : (y.waiting.reverse ++ y.output).isEmpty = false := by
        rw [List.isEmpty_eq_false_iff]
        intro empty
        rw [List.append_eq_nil_iff, List.reverse_eq_nil_iff] at empty
        rw [empty.1, empty.2] at same
        rw [placed_eq_nil_iff.mp same.nil_eq.symm] at any
        cases any
      simp only [Finishes, some', any, List.filter_cons, List.filter_nil, if_true]
      refine .cons ⟨?_, ?_⟩ .nil
      · exact (List.Perm.append_right _ (List.reverse_perm _)).trans same
      · rw [List.filter_append, filter_isFixed_waiting h.waits, List.append_nil]
        exact h.order
  · exact .inl ⟨some', if_neg (Nat.ne_of_gt some')⟩

/-- What a token can do to a state that holds what is written for a statement. -/
inductive StepCases (y : Yard) (read written : List Token) (t : Token) : Prop where
  | breaks (m : Mismatch) : y.step t = .error m → (∀ rest, Breaks read (t :: rest) m) →
      StepCases y read written t
  | stays (next : Yard) : y.step t = .ok next → (∀ rest m, ¬Breaks read (t :: rest) m) →
      (next.opened : Int) = depth (read ++ [t]) → t.divides (depth read) = false →
      next.statements = y.statements → next.Holds (written ++ [t]) → StepCases y read written t
  | ends (new : List (List Token)) : y.step t = .ok ⟨[], [], y.statements ++ new⟩ →
      (∀ rest m, ¬Breaks read (t :: rest) m) → depth (read ++ [t]) = 0 →
      t.divides (depth read) = true → Finishes [written] new → StepCases y read written t

theorem step_cases (h : y.Holds written) (counted : (y.opened : Int) = depth read) (t : Token) :
    StepCases y read written t := by
  -- A closing parenthesis breaks or stays, and any other token ends a statement or stays in it.
  by_cases closes : t = .op .rightParen
  · subst closes
    rcases close_cases h with ⟨none, failed⟩ | ⟨next, done, size, kept, holds⟩
    · refine .breaks .right failed fun rest => .closing ?_
      rw [← counted, none]
      rfl
    · refine .stays next done (fun rest m breaks => ?_) ?_ rfl kept holds
      · cases breaks
        omega
      · rw [depth_concat, ← counted, size, Int.natCast_add]
        exact (Int.add_sub_cancel _ 1).symm
  · cases divides : t.divides y.opened with
    | true =>
      have step := step_divides divides
      rw [counted] at divides
      rcases endStatement_cases h with ⟨some', failed⟩ | ⟨none, new, done, finishes⟩
      · have inside : 0 < depth read := by omega
        refine .breaks .left (step.trans failed) fun rest => ?_
        rcases Token.eq_of_divides divides with rfl | ⟨-, outside⟩
        · exact .dividing inside
        · omega
      · have outside : depth read = 0 := by omega
        have weightless : t.weight = 0 := by
          rcases Token.eq_of_divides divides with rfl | ⟨rfl, -⟩ <;> rfl
        refine .ends new (step.trans done) (fun rest m breaks => ?_) ?_ divides finishes
        · cases breaks
          · exact closes rfl
          · omega
        · rw [depth_concat, outside, weightless]
          rfl
    | false =>
      obtain ⟨next, done, kept, size, holds⟩ := step_stays h divides closes
      rw [counted] at divides
      refine .stays next done (fun rest m breaks => ?_) ?_ divides kept holds
      · cases breaks
        · exact closes rfl
        · cases divides
      · rw [depth_concat, ← counted, size]

theorem Finishes.append {front back new more : List (List Token)} (first : Finishes front new)
    (second : Finishes back more) : Finishes (front ++ back) (new ++ more) := by
  rw [Finishes, List.filter_append]
  exact List.rel_append first second

/-- What a run gives from the middle: it fails with the first break, and without one it finishes
what is written for each of the statements. -/
inductive RunCases (y : Yard) (read written tokens : List Token) : Prop where
  | finishes (new : List (List Token)) :
      y.run tokens = (y.statements ++ new, none) → Unbroken read tokens →
      Finishes ((parts (depth read) tokens).modifyHead (written ++ ·)) new →
      RunCases y read written tokens
  | breaks (m : Mismatch) : (y.run tokens).2 = some m → FirstBreak read tokens m →
      RunCases y read written tokens

theorem run_cases (h : y.Holds written) (counted : (y.opened : Int) = depth read)
    (tokens : List Token) : RunCases y read written tokens := by
  -- On the tokens. A token that ends a statement leaves a state that holds nothing, so what is
  -- written starts anew after it, but what is read goes on.
  induction tokens generalizing y read written with
  | nil =>
    rcases endStatement_cases h with ⟨some', failed⟩ | ⟨none, new, done, finishes⟩
    · refine .breaks .left (by rw [run, failed]) (.here (.ending ?_))
      omega
    · refine .finishes new (by rw [run, done]) ?_ (by simpa [parts] using finishes)
      intro front rest m whole breaks
      obtain ⟨rfl, rfl⟩ := List.append_eq_nil_iff.mp whole.symm
      rw [List.append_nil] at breaks
      cases breaks
      omega
  | cons t rest ih =>
    cases step_cases h counted t with
    | breaks m failed here => exact .breaks m (by rw [run, failed]) (.here (here rest))
    | stays next done unbroken counted divides kept holds =>
      have goes : y.run (t :: rest) = next.run rest := by rw [run, done]
      cases ih holds counted with
      | finishes new outcome later finishes =>
        refine .finishes new (by rw [goes, outcome, kept]) (.cons (unbroken rest) later) ?_
        rw [depth_concat] at finishes
        simpa [parts, divides, Function.comp_def] using finishes
      | breaks m outcome later =>
        exact .breaks m (by rw [goes, outcome]) (.cons (unbroken rest) later)
    | ends new done unbroken outside divides finishes =>
      have goes : y.run (t :: rest) = run ⟨[], [], y.statements ++ new⟩ rest := by rw [run, done]
      have counted : ((⟨[], [], y.statements ++ new⟩ : Yard).opened : Int) = depth (read ++ [t]) :=
        outside.symm
      cases ih (holds_nil _) counted with
      | finishes more outcome later rest' =>
        refine .finishes (new ++ more) (by rw [goes, outcome, List.append_assoc])
          (.cons (unbroken rest) later) ?_
        rw [depth_concat] at rest'
        have whole := Finishes.append finishes rest'
        have same : (parts (depth read + t.weight) rest).modifyHead ([] ++ ·) =
            parts (depth read + t.weight) rest := congrFun List.modifyHead_id _
        rw [same] at whole
        simpa [parts, divides] using whole
      | breaks m outcome later =>
        exact .breaks m (by rw [goes, outcome]) (.cons (unbroken rest) later)

end

end Yard

theorem nameToken_ne_args (name : List Char) : nameToken name ≠ .args := by
  unfold nameToken
  dsimp only
  split
  · unfold Token.constant?
    repeat' split
    all_goals exact nofun
  · exact nofun

theorem readToken_ne_args {size : Nat} {text left : List Char} {t : Token}
    (h : readToken size text = .ok (some t, left)) : t ≠ .args := by
  rintro rfl
  cases text with
  | nil => cases h
  | cons c rest =>
    unfold readToken at h
    dsimp only at h
    split at h
    · split at h <;> split at h <;> cases h
    · split at h
      · cases string : readString c (rest.length + 1) [] rest <;> rw [string] at h <;> cases h
      · split at h
        · cases h
        · split at h
          · cases h
          · split at h
            · exact nameToken_ne_args _ (Option.some.inj (congrArg Prod.fst (Except.ok.inj h)))
            · cases h

theorem push_ne_args (limit : Nat) {done : List Token} {t : Token} (other : t ≠ .args)
    (before : .args ∉ done) : .args ∉ (push limit done t).1 := by
  unfold push
  dsimp only
  split <;> try split
  all_goals simp_all [other.symm]

theorem readTokens_ne_args (limit size : Nat) {done : List Token} (before : .args ∉ done)
    (fuel : Nat) (text : List Char) : .args ∉ (readTokens limit size fuel done text).1 := by
  induction fuel generalizing done text with
  | zero => rwa [readTokens, List.mem_reverse]
  | succ fuel ih =>
    cases text with
    | nil => rwa [readTokens, List.mem_reverse]
    | cons c rest =>
      rw [readTokens]
      split
      · rwa [List.mem_reverse]
      · exact ih before _
      · rename_i t left token
        have pushed := push_ne_args limit (readToken_ne_args token) before
        split <;> rename_i same <;> rw [same] at pushed
        · exact ih pushed _
        · rwa [List.mem_reverse]

end JsonTemplate.Expr

namespace JsonTemplate.Program

open JsonTemplate.Expr

/-- The tokens of an expression become statements exactly where their parentheses are balanced, and
the problem is the first break otherwise. Each statement rearranges what is written between two
ends of statements; where only parentheses are written, there is no statement. -/
theorem parse_balanced (options : ExprOptions) (source : String) {tokens : List Token}
    (read : tokenize options.maxTokens source.toList = (tokens, none)) :
    ((parse options source).problems = [] ↔ Unbroken [] tokens) ∧
      ((parse options source).problems = ["Mismatched operator found: right parenthesis"] ↔
        FirstBreak [] tokens .right) ∧
      ((parse options source).problems = ["Mismatched operator found: left parenthesis"] ↔
        FirstBreak [] tokens .left) ∧
      (Unbroken [] tokens → .args ∉ tokens ∧
        List.Forall₂ Rearranges ((parts 0 tokens).filter fun written => written.any (!·.isGrouping))
          (parse options source).statements) := by
  have start : ofTokens options source = ⟨source, tokens, [], [], options.maxStringLength⟩ := by
    rw [ofTokens, read]
    rfl
  have unmarked : .args ∉ tokens := by
    have all := readTokens_ne_args options.maxTokens (Text.byteLength source.toList)
      (List.not_mem_nil) (source.toList.length + 1) source.toList
    rw [← tokenize, read] at all
    exact all
  have parsed : parse options source = ⟨source, tokens, (postfixStatements tokens).1,
      ((postfixStatements tokens).2.map Mismatch.message).toList, options.maxStringLength⟩ := by
    rw [parse, start]
    rfl
  have outside : (Yard.initial.opened : Int) = depth [] := rfl
  rw [parsed]
  cases Yard.run_cases (Yard.holds_nil []) outside tokens with
  | finishes new outcome unbroken finishes =>
    have made : postfixStatements tokens = (new, none) := outcome
    have same : (parts 0 tokens).modifyHead ([] ++ ·) = parts 0 tokens :=
      congrFun List.modifyHead_id _
    rw [depth_nil, same] at finishes
    rw [made]
    exact ⟨iff_of_true rfl unbroken, iff_of_false nofun (·.not_unbroken unbroken),
      iff_of_false nofun (·.not_unbroken unbroken), fun _ => ⟨unmarked, finishes⟩⟩
  | breaks m outcome first =>
    have made : (postfixStatements tokens).2 = some m := outcome
    have broken : ¬Unbroken [] tokens := first.not_unbroken
    have named (n : Mismatch) : [m.message] = [n.message] ↔ FirstBreak [] tokens n :=
      ⟨fun same => Mismatch.message_injective (List.cons.inj same).1 ▸ first,
        fun other => by rw [first.unique other]⟩
    rw [made]
    exact ⟨iff_of_false nofun broken, named .right, named .left, fun unbroken =>
      absurd unbroken broken⟩

/-- Two statements, the first with a call, and a call that a semicolon breaks. -/
theorem parse_balanced_call :
    List.Forall₂ Rearranges
        [[.call .max, .op .leftParen, .var (.path [.key "b"]), .op .comma, .op .logicalNot,
            .string "x", .op .rightParen, .op .equal, .var (.path [.key "c"])],
          [.var (.path [.key "d"])]]
        (parse .unlimited "max(b, !'x') == c, d").statements ∧
      FirstBreak [] [.call .max, .op .leftParen, .var (.path [.key "b"]), .op .semicolon,
        .var (.path [.key "c"]), .op .rightParen] .left := by
  have read : tokenize 0 "max(b, !'x') == c, d".toList =
      ([.call .max, .op .leftParen, .var (.path [.key "b"]), .op .comma, .op .logicalNot,
        .string "x", .op .rightParen, .op .equal, .var (.path [.key "c"]), .op .comma,
        .var (.path [.key "d"])], none) := by with_unfolding_all rfl
  have read' : tokenize 0 "max(b; c)".toList =
      ([.call .max, .op .leftParen, .var (.path [.key "b"]), .op .semicolon,
        .var (.path [.key "c"]), .op .rightParen], none) := by with_unfolding_all rfl
  have whole := parse_balanced .unlimited "max(b, !'x') == c, d" read
  have broken := parse_balanced .unlimited "max(b; c)" read'
  exact ⟨(whole.2.2.2 (whole.1.mp (by decide +kernel))).2, broken.2.2.1.mp (by decide +kernel)⟩

end JsonTemplate.Program

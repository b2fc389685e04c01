import JsonTemplate.Expr.Program
import JsonTemplate.Proofs.Expr.Evaluation

namespace JsonTemplate.Expr

section

variable {σ : Type} (scope : Scope σ) (limit : Nat) (s : σ)

/-- The stack after tokens, if the evaluation goes on to their end. -/
def advance (stack : List Slot) : List Token → Option (List Slot)
  | [] => some stack
  | token :: rest =>
    match reduceToken scope limit s stack token with
    | .next stack => advance stack rest
    | .stop _ _ => none

/-- The state after the assignment of the top of a stack to what lies under it: a local variable
that is still a name is bound to a value, and anything else is reported. -/
def afterAssign (stack : List Slot) : σ :=
  match targetName (stack.drop 1), stack.head?.bind (·.read scope s) with
  | some name, some v => scope.assign s name v
  | _, _ => scope.report s (ReduceError.operands .assign).message

/-- Tokens put slots on any stack, or they stop the evaluation on any stack. -/
def Lays (tokens : List Token) (slots : Option (List Slot)) : Prop :=
  ∀ stack, advance scope limit s stack tokens = slots.map (· ++ stack)

/-- What waits on the stack: the slot that an expression leaves there, or the mark of a call. -/
def Leaves : Option Expression → Slot → Prop
  | some e, slot => Lays scope limit s e.postfixForm (some [slot])
  | none, slot => slot = .args

variable {scope limit s}

theorem advance_append (stack : List Slot) (front back : List Token) :
    advance scope limit s stack (front ++ back) =
      (advance scope limit s stack front).bind (advance scope limit s · back) := by
  induction front generalizing stack with
  | nil => rfl
  | cons token front ih =>
    rw [List.cons_append, advance, advance]
    cases reduceToken scope limit s stack token with
    | next stack => exact ih stack
    | stop => rfl

theorem reduceTokens_append {stack next : List Slot} {front : List Token}
    (h : advance scope limit s stack front = some next) (rest : List Token) :
    reduceTokens scope limit s stack (front ++ rest) = reduceTokens scope limit s next rest := by
  induction front generalizing stack with
  | nil => exact congrArg (reduceTokens scope limit s · rest) (Option.some.inj h)
  | cons token front ih =>
    rw [advance] at h
    rw [List.cons_append, reduceTokens]
    cases outcome : reduceToken scope limit s stack token <;> rw [outcome] at h
    · exact ih h
    · cases h

theorem reduceToken_assign (stack : List Slot) :
    reduceToken scope limit s stack (.op .assign) =
      .stop (stack.drop 2) (afterAssign scope s stack) := by
  cases stack with
  | nil => rfl
  | cons value under =>
    simp only [reduceToken, popValue, afterAssign, List.drop_succ_cons, List.drop_zero,
      List.head?_cons, Option.bind_some]
    cases targetName under with
    | none => rfl
    | some name => cases value.read scope s <;> rfl

theorem assign_notMem {stack next : List Slot} {front : List Token}
    (h : advance scope limit s stack front = some next) : .op .assign ∉ front := by
  intro member
  obtain ⟨before, after, rfl⟩ := List.append_of_mem member
  rw [advance_append] at h
  cases first : advance scope limit s stack before with
  | none =>
    rw [first] at h
    cases h
  | some between =>
    rw [first, Option.bind_some, advance, reduceToken_assign] at h
    cases h

namespace Expression

mutual

/-- Whether an expression has an assignment. -/
def assigns : Expression → Bool
  | atom _ => false
  | unary _ operand => operand.assigns
  | binary o left right => o.val = .assign || left.assigns || right.assigns
  | call _ args => assignsAll args

def assignsAll : List Expression → Bool
  | [] => false
  | e :: rest => e.assigns || assignsAll rest

end

mutual

/-- What waits for its operator or call where the first assignment of an expression is made, the
last one first: a left operand, an earlier argument, or the mark of a call. -/
def waiting : Expression → List (Option Expression)
  | atom _ => []
  | unary _ operand => operand.waiting
  | binary _ left right =>
    if left.assigns then left.waiting
    else if right.assigns then right.waiting ++ [some left]
    else []
  | call _ args => waitingAll args ++ [none]

def waitingAll : List Expression → List (Option Expression)
  | [] => []
  | e :: rest => if e.assigns then e.waiting else waitingAll rest ++ [some e]

end

mutual

theorem assign_mem_postfixForm (e : Expression) :
    .op .assign ∈ e.postfixForm ↔ e.assigns = true := by
  match e with
  | .atom a => cases a <;> simp [postfixForm, assigns, Atom.token]
  | .unary o operand =>
    have other : o.val ≠ .assign := fun same => by
      have isUnary := o.property
      rw [same] at isUnary
      cases isUnary
    simp [postfixForm, assigns, assign_mem_postfixForm operand, other.symm]
  | .binary o left right =>
    have same : Operator.assign = o.val ↔ o.val = .assign := eq_comm
    simp only [postfixForm, assigns, List.mem_append, List.mem_singleton, Token.op.injEq, same,
      assign_mem_postfixForm left, assign_mem_postfixForm right, Bool.or_eq_true,
      decide_eq_true_eq]
    tauto
  | .call f args => simp [postfixForm, assigns, assign_mem_postfixFormAll args]

theorem assign_mem_postfixFormAll (args : List Expression) :
    .op .assign ∈ postfixFormAll args ↔ assignsAll args = true := by
  match args with
  | [] => simp [postfixFormAll, assignsAll]
  | e :: rest =>
    simp [postfixFormAll, assignsAll, assign_mem_postfixForm e, assign_mem_postfixFormAll rest]

end

end Expression

theorem Lays.append {front back : List Token} {slots above : Option (List Slot)}
    (first : Lays scope limit s front slots) (second : Lays scope limit s back above) :
    Lays scope limit s (front ++ back) (slots.bind fun slots => above.map (· ++ slots)) := by
  intro stack
  rw [advance_append, first]
  cases slots with
  | none => rfl
  | some slots =>
    rw [Option.map_some, Option.bind_some, second]
    cases above <;> simp

theorem Lays.halt {front : List Token} (h : Lays scope limit s front none) (back : List Token) :
    Lays scope limit s (front ++ back) none := fun stack => by
  rw [advance_append, h]
  rfl

theorem Lays.token {token : Token} {slot : Slot}
    (h : ∀ stack, reduceToken scope limit s stack token = .next (slot :: stack)) :
    Lays scope limit s [token] (some [slot]) := fun stack => by
  rw [advance, h]
  rfl

theorem Lays.next {tokens : List Token} {token : Token} {slots : List Slot} {slot : Slot}
    (h : Lays scope limit s tokens (some slots))
    (step : ∀ stack, reduceToken scope limit s (slots ++ stack) token = .next (slot :: stack)) :
    Lays scope limit s (tokens ++ [token]) (some [slot]) := fun stack => by
  rw [advance_append, h, Option.map_some, Option.bind_some, advance, step]
  rfl

theorem Lays.stop {tokens : List Token} {token : Token} {slots : List Slot} {s' : σ}
    (h : Lays scope limit s tokens (some slots))
    (step : ∀ stack, reduceToken scope limit s (slots ++ stack) token = .stop stack s') :
    Lays scope limit s (tokens ++ [token]) none := fun stack => by
  rw [advance_append, h, Option.map_some, Option.bind_some, advance, step]
  rfl

variable (scope s) in
theorem takeArgs_notMem {slots : List Slot} (others : .args ∉ slots) :
    ∃ values, ∀ stack, takeArgs scope s [] (slots ++ .args :: stack) = (values, stack) := by
  suffices all : ∀ found, ∃ values, ∀ stack,
      takeArgs scope s found (slots ++ .args :: stack) = (values, stack) from all []
  induction slots with
  | nil => exact fun found => ⟨found, fun _ => rfl⟩
  | cons slot slots ih =>
    rw [List.mem_cons, not_or] at others
    intro found
    obtain ⟨values, taken⟩ := ih others.2 ((slot.read scope s).toList ++ found)
    refine ⟨values, fun stack => ?_⟩
    rw [← taken, List.cons_append, takeArgs]
    · cases slot.read scope s <;> rfl
    · exact fun same => others.1 same.symm

theorem reduceToken_unary_slot {o : Operator} (isUnary : o.isUnary = true) {top : Slot}
    (other : top ≠ .args) :
    ∃ slot, slot ≠ .args ∧
      ∀ stack, reduceToken scope limit s (top :: stack) (.op o) = .next (slot :: stack) := by
  cases read : top.read scope s with
  | some v => exact ⟨.value (unary o v), by simp, reduceToken_unary isUnary read limit⟩
  | none =>
    refine ⟨top, other, fun stack => ?_⟩
    cases o <;> first | (simp [reduceToken, Operator.isUnary, read]; done) | cases isUnary

theorem reduceToken_binary_slots {o : Operator} (isBinary : o.isBinary = true)
    (other : o ≠ .assign) (a b : Slot) :
    (∃ v, ∀ stack, reduceToken scope limit s (b :: a :: stack) (.op o) =
        .next (.value v :: stack)) ∨
      ∃ s', ∀ stack, reduceToken scope limit s (b :: a :: stack) (.op o) = .stop stack s' := by
  have plain : ¬o.isUnary = true := by cases o <;> first | exact Bool.false_ne_true | cases isBinary
  cases first : a.read scope s with
  | none =>
    refine .inr ⟨scope.report s (ReduceError.operands o).message, fun stack => ?_⟩
    rw [reduceToken, if_neg plain]
    · simp only [popValue, first]
    · exact other
  | some x =>
    cases second : b.read scope s with
    | none =>
      refine .inr ⟨scope.report s (ReduceError.operands o).message, fun stack => ?_⟩
      rw [reduceToken, if_neg plain]
      · simp only [popValue, first, second]
      · exact other
    | some y =>
      cases outcome : binary limit o x y with
      | ok v => exact .inl ⟨v, reduceToken_binary isBinary other first second outcome⟩
      | error e =>
        refine .inr ⟨scope.report s e.message, fun stack => ?_⟩
        rw [reduceToken, if_neg plain]
        · simp only [popValue, first, second, outcome]
        · exact other

theorem reduceToken_call_slots (f : Function) {slots : List Slot} (others : .args ∉ slots) :
    (∃ v, ∀ stack, reduceToken scope limit s (slots ++ .args :: stack) (.call f) =
        .next (.value v :: stack)) ∨
      ∃ s', ∀ stack, reduceToken scope limit s (slots ++ .args :: stack) (.call f) =
        .stop stack s' := by
  obtain ⟨values, taken⟩ := takeArgs_notMem scope s others
  cases outcome : f.apply values with
  | some v => exact .inl ⟨v, fun stack => by simp only [reduceToken, taken, outcome]⟩
  | none =>
    refine .inr ⟨scope.report s (ReduceError.call f).message, fun stack => ?_⟩
    simp only [reduceToken, taken, outcome]

namespace Expression

mutual

theorem lays_postfixForm (e : Expression) (free : e.assigns = false) :
    Lays scope limit s e.postfixForm none ∨
      ∃ slot, slot ≠ .args ∧ Lays scope limit s e.postfixForm (some [slot]) := by
  match e with
  | .atom a =>
    cases a with
    | var name => exact .inr ⟨.var name, by simp, .token fun _ => rfl⟩
    | number | string | bool | null => exact .inr ⟨.value _, by simp, .token fun _ => rfl⟩
  | .unary o operand =>
    rcases lays_postfixForm operand free with stops | ⟨top, other, lays⟩
    · exact .inl (stops.halt _)
    · obtain ⟨slot, other, step⟩ := reduceToken_unary_slot o.property other
      exact .inr ⟨slot, other, lays.next step⟩
  | .binary o left right =>
    simp only [assigns, Bool.or_eq_false_iff, decide_eq_false_iff_not] at free
    obtain ⟨⟨other, freeLeft⟩, freeRight⟩ := free
    rcases lays_postfixForm left freeLeft with stops | ⟨a, -, laysLeft⟩
    · exact .inl ((stops.halt _).halt _)
    · rcases lays_postfixForm right freeRight with stops | ⟨b, -, laysRight⟩
      · exact .inl ((laysLeft.append stops).halt _)
      · rcases reduceToken_binary_slots o.property other a b with ⟨v, step⟩ | ⟨s', step⟩
        · exact .inr ⟨.value v, by simp, (laysLeft.append laysRight).next step⟩
        · exact .inl ((laysLeft.append laysRight).stop step)
  | .call f args =>
    have marked : Lays scope limit s [.args] (some [.args]) := .token fun _ => rfl
    rcases lays_postfixFormAll args free with stops | ⟨slots, others, lays⟩
    · exact .inl ((marked.append stops).halt _)
    · have above := marked.append lays
      rcases reduceToken_call_slots f others with ⟨v, step⟩ | ⟨s', step⟩
      · exact .inr ⟨.value v, by simp, above.next fun stack => by simpa using step stack⟩
      · exact .inl (above.stop fun stack => by simpa using step stack)

theorem lays_postfixFormAll (args : List Expression) (free : assignsAll args = false) :
    Lays scope limit s (postfixFormAll args) none ∨
      ∃ slots, .args ∉ slots ∧ Lays scope limit s (postfixFormAll args) (some slots) := by
  match args with
  | [] => exact .inr ⟨[], List.not_mem_nil, fun _ => rfl⟩
  | e :: rest =>
    rw [assignsAll, Bool.or_eq_false_iff] at free
    rcases lays_postfixForm e free.1 with stops | ⟨slot, other, lays⟩
    · exact .inl (stops.halt _)
    · rcases lays_postfixFormAll rest free.2 with stops | ⟨slots, others, laysAll⟩
      · exact .inl (lays.append stops)
      · refine .inr ⟨slots ++ [slot], ?_, lays.append laysAll⟩
        simp [others, other.symm]

end

end Expression

def Arrives (scope : Scope σ) (limit : Nat) (s : σ) (front : List Token)
    (waiting : List (Option Expression)) : Prop :=
  ∀ base stack, advance scope limit s base front = some stack →
    ∃ b a under, stack = b :: a :: (under ++ base) ∧
      List.Forall₂ (Leaves scope limit s) waiting under

theorem Arrives.after {front back : List Token} {slots : List Slot}
    {waiting before : List (Option Expression)} (first : Lays scope limit s front (some slots))
    (known : List.Forall₂ (Leaves scope limit s) before slots)
    (second : Arrives scope limit s back waiting) :
    Arrives scope limit s (front ++ back) (waiting ++ before) := by
  intro base stack reached
  rw [advance_append, first] at reached
  obtain ⟨b, a, under, rfl, waits⟩ := second _ _ reached
  exact ⟨b, a, under ++ slots, by rw [List.append_assoc], List.rel_append waits known⟩

theorem Arrives.halted {front : List Token} (h : Lays scope limit s front none)
    (waiting : List (Option Expression)) : Arrives scope limit s front waiting := by
  intro base stack reached
  rw [h] at reached
  cases reached

theorem front_unique {front front' rest rest' : List Token} {t : Token} (free : t ∉ front)
    (free' : t ∉ front') (same : front ++ t :: rest = front' ++ t :: rest') : front = front' := by
  rcases List.append_eq_append_iff.mp same with ⟨more, rfl, tail⟩ | ⟨more, rfl, tail⟩ <;>
    cases more with
    | nil => simp
    | cons u more =>
      obtain ⟨rfl, -⟩ := List.cons.inj tail
      simp at free free'

namespace Expression

mutual

theorem arrives_postfixForm (e : Expression) (assigns : e.assigns = true) :
    ∃ front rest, e.postfixForm = front ++ .op .assign :: rest ∧ .op .assign ∉ front ∧
      Arrives scope limit s front e.waiting := by
  match e with
  | .atom a => cases assigns
  | .unary o operand =>
    obtain ⟨front, rest, form, free, arrives⟩ := arrives_postfixForm operand assigns
    exact ⟨front, rest ++ [.op o], by simp [postfixForm, form], free, arrives⟩
  | .binary o left right =>
    -- The first assignment is in the left operand, or else in the right one, or else it is here.
    rw [waiting]
    cases inLeft : left.assigns with
    | true =>
      obtain ⟨front, rest, form, free, arrives⟩ := arrives_postfixForm left inLeft
      exact ⟨front, rest ++ (right.postfixForm ++ [.op o]), by simp [postfixForm, form], free,
        arrives⟩
    | false =>
      have freeLeft : .op .assign ∉ left.postfixForm := by
        simp [assign_mem_postfixForm, inLeft]
      cases inRight : right.assigns with
      | true =>
        obtain ⟨front, rest, form, free, arrives⟩ := arrives_postfixForm right inRight
        refine ⟨left.postfixForm ++ front, rest ++ [.op o], by simp [postfixForm, form],
          by simp [freeLeft, free], ?_⟩
        rcases left.lays_postfixForm inLeft with stops | ⟨slot, -, lays⟩
        · exact .halted (stops.halt _) _
        · exact .after lays (.cons lays .nil) arrives
      | false =>
        have freeRight : .op .assign ∉ right.postfixForm := by
          simp [assign_mem_postfixForm, inRight]
        have isAssign : o.val = .assign := by
          simpa [Expression.assigns, inLeft, inRight] using assigns
        refine ⟨left.postfixForm ++ right.postfixForm, [], by simp [postfixForm, isAssign],
          by simp [freeLeft, freeRight], ?_⟩
        rcases left.lays_postfixForm inLeft with stops | ⟨a, -, laysLeft⟩
        · exact .halted (stops.halt _) _
        · rcases right.lays_postfixForm inRight with stops | ⟨b, -, laysRight⟩
          · exact .halted (laysLeft.append stops) _
          · intro base stack reached
            rw [laysLeft.append laysRight] at reached
            cases reached
            exact ⟨b, a, [], rfl, .nil⟩
  | .call f args =>
    obtain ⟨front, rest, form, free, arrives⟩ := arrives_postfixFormAll args assigns
    have marked : Lays scope limit s [.args] (some [.args]) := .token fun _ => rfl
    exact ⟨.args :: front, rest ++ [.call f], by simp [postfixForm, form], by simp [free],
      .after marked (.cons rfl .nil) arrives⟩

theorem arrives_postfixFormAll (args : List Expression) (assigns : assignsAll args = true) :
    ∃ front rest, postfixFormAll args = front ++ .op .assign :: rest ∧ .op .assign ∉ front ∧
      Arrives scope limit s front (waitingAll args) := by
  match args with
  | [] => cases assigns
  | e :: rest =>
    rw [waitingAll]
    cases here : e.assigns with
    | true =>
      obtain ⟨front, back, form, free, arrives⟩ := arrives_postfixForm e here
      exact ⟨front, back ++ postfixFormAll rest, by simp [postfixFormAll, form], free, arrives⟩
    | false =>
      rw [assignsAll, here, Bool.false_or] at assigns
      obtain ⟨front, back, form, free, arrives⟩ := arrives_postfixFormAll rest assigns
      refine ⟨e.postfixForm ++ front, back, by simp [postfixFormAll, form],
        by simp [assign_mem_postfixForm, here, free], ?_⟩
      rcases e.lays_postfixForm here with stops | ⟨slot, -, lays⟩
      · exact .halted (stops.halt _) _
      · exact .after lays (.cons lays .nil) arrives

end

end Expression

variable (scope limit s) in
/-- A statement ends at the first assignment that it comes to, and its value is what lies under the
two operands then, as the state after the assignment has it. Under the operands in an expression are
the operands and arguments that wait for their operators and calls, so there is no value where none
waits. -/
theorem reduceStatement_assign {front : List Token} {stack : List Slot}
    (reached : advance scope limit s [] front = some stack) (rest : List Token) :
    (∃ s', s' = afterAssign scope s stack ∧
      reduceStatement scope limit s (front ++ .op .assign :: rest) =
        match stack[2]?.map (·.read scope s') with
        | some (some v) => (some v, s')
        | some none => (none, scope.report s' ReduceError.noValue.message)
        | none => (none, s')) ∧
      ∀ e : Expression, e.postfixForm = front ++ .op .assign :: rest →
        2 ≤ stack.length ∧ List.Forall₂ (Leaves scope limit s) e.waiting (stack.drop 2) := by
  refine ⟨⟨_, rfl, ?_⟩, fun e form => ?_⟩
  · rw [reduceStatement, reduceTokens_append reached, reduceTokens, reduceToken_assign]
    obtain _ | ⟨b, _ | ⟨a, _ | ⟨slot, under⟩⟩⟩ := stack
    · rfl
    · rfl
    · rfl
    · simp only [List.drop_succ_cons, List.drop_zero, List.getElem?_cons_succ,
        List.getElem?_cons_zero, Option.map_some]
      cases slot.read scope (afterAssign scope s (b :: a :: slot :: under)) <;> rfl
  · -- Both ways to split the tokens at their first assignment are the same.
    have assigns : e.assigns = true := e.assign_mem_postfixForm.mp (by simp [form])
    obtain ⟨front', rest', form', free, arrives⟩ := e.arrives_postfixForm assigns
    obtain rfl := front_unique (assign_notMem reached) free (form.symm.trans form')
    obtain ⟨b, a, under, rfl, waits⟩ := arrives [] stack reached
    rw [List.append_nil]
    exact ⟨Nat.le_add_left 2 under.length, waits⟩

end

def salute : Expression :=
  .binary .add (.atom (.string "Dear "))
    ((Expression.atom (.string "Ann")).assignment (.path [.key "@g"]))

/-- The left operand of the sum waits, and so it becomes the value. -/
theorem reduceStatement_assign_salute :
    reduceStatement ledger 0 [] salute.postfixForm =
        (some (.string "Dear "), [("@g", .string "Ann")]) ∧
      List.Forall₂ (Leaves ledger 0 []) [some (.atom (.string "Dear "))]
        [.value (.string "Dear ")] := by
  have reached : advance ledger 0 [] [] [.string "Dear ", .var (.path [.key "@g"]), .string "Ann"] =
      some [.value (.string "Ann"), .var (.path [.key "@g"]), .value (.string "Dear ")] := rfl
  obtain ⟨⟨_, rfl, reduced⟩, waits⟩ := reduceStatement_assign ledger 0 [] reached [.op .add]
  exact ⟨reduced, (waits salute rfl).2⟩

/-- Where the assignment is an operand, the statement has a value. -/
theorem assign_keeps_operand :
    (Program.parse .unlimited "'Dear ' + (@g = 'Ann')").problems = [] ∧
      (Program.parse .unlimited "'Dear ' + (@g = 'Ann')").reduce ledger [] =
        (some (.string "Dear "), [("@g", .string "Ann")]) := by
  exact ⟨by decide +kernel, by with_unfolding_all rfl⟩

end JsonTemplate.Expr

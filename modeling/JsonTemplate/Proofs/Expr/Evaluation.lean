import JsonTemplate.Expr.Reduce
import JsonTemplate.Proofs.Expr.Expression
import Mathlib.Data.List.Forall2

namespace JsonTemplate.Expr

def Atom.value? (lookup : VarName → Option ExprValue) : Atom → Option ExprValue
  | number x => some (.ofDouble x)
  | string s => some (.string s)
  | bool b => some (.bool b)
  | null => some .null
  | var name => lookup name

def Atom.vars : Atom → List VarName
  | var name => [name]
  | _ => []

namespace Expression

mutual

/-- The value of an expression: that of its operator or function on the values of its parts, with no
limit on strings. -/
def value? (lookup : VarName → Option ExprValue) : Expression → Option ExprValue
  | atom a => a.value? lookup
  | unary o operand => (value? lookup operand).map (Expr.unary o)
  | binary o left right => do
    let a ← value? lookup left
    let b ← value? lookup right
    (Expr.binary 0 o a b).toOption
  | call f args => do
    let values ← values? lookup args
    f.apply values

def values? (lookup : VarName → Option ExprValue) : List Expression → Option (List ExprValue)
  | [] => some []
  | e :: rest => do
    let v ← value? lookup e
    let values ← values? lookup rest
    some (v :: values)

end

mutual

def vars : Expression → List VarName
  | atom a => a.vars
  | unary _ operand => operand.vars
  | binary _ left right => left.vars ++ right.vars
  | call _ args => varsAll args

def varsAll : List Expression → List VarName
  | [] => []
  | e :: rest => e.vars ++ varsAll rest

end

mutual

/-- Whether an expression assigns nothing, and has arguments in all its calls. -/
def isPure : Expression → Bool
  | atom _ => true
  | unary _ operand => operand.isPure
  | binary o left right => o.val ≠ .assign && left.isPure && right.isPure
  | call _ args => !args.isEmpty && isPureAll args

def isPureAll : List Expression → Bool
  | [] => true
  | e :: rest => e.isPure && isPureAll rest

end

def assignment (e : Expression) (target : VarName) : Expression :=
  .binary .assign (.atom (.var target)) e

end Expression

theorem exists_of_addValues (a b : ExprValue) : ∃ v, addValues 0 a b = .ok v := by
  unfold addValues
  split
  · exact ⟨_, if_neg fun limited => Nat.lt_irrefl 0 limited.1⟩
  · exact ⟨_, rfl⟩

theorem exists_of_binary {o : Operator} (isBinary : o.isBinary = true) (other : o ≠ .assign)
    (a b : ExprValue) : ∃ v, binary 0 o a b = .ok v := by
  cases o <;> first
    | exact ⟨_, rfl⟩
    | exact exists_of_addValues a b
    | exact absurd rfl other
    | cases isBinary

theorem Function.exists_of_apply (f : Function) {args : List ExprValue} (some' : args ≠ []) :
    ∃ v, f.apply args = some v := by
  obtain ⟨first, rest, rfl⟩ := List.exists_cons_of_ne_nil some'
  cases f <;> exact ⟨_, rfl⟩

section

variable {σ : Type} (scope : Scope σ) (s : σ)

def Slot.Hold (slots : List Slot) (values : List ExprValue) : Prop :=
  List.Forall₂ (fun slot v => slot.read scope s = some v) slots values

variable {scope s}

theorem Slot.ne_args {slot : Slot} {v : ExprValue} (h : slot.read scope s = some v) :
    slot ≠ .args := by
  rintro rfl
  cases h

theorem takeArgs_hold {slots : List Slot} {values : List ExprValue}
    (h : Slot.Hold scope s slots values) (found : List ExprValue) (stack : List Slot) :
    takeArgs scope s found (slots ++ .args :: stack) = (values.reverse ++ found, stack) := by
  induction h generalizing found with
  | nil => rfl
  | @cons slot v slots values first _ ih =>
    rw [List.cons_append, takeArgs, first]
    · simp [ih]
    · exact Slot.ne_args first

theorem reduceTokens_next {limit : Nat} {stack next : List Slot} {token : Token}
    (h : reduceToken scope limit s stack token = .next next) (rest : List Token) :
    reduceTokens scope limit s stack (token :: rest) = reduceTokens scope limit s next rest := by
  rw [reduceTokens, h]

def Pushes (scope : Scope σ) (s : σ) (tokens : List Token) (slots : List Slot) : Prop :=
  ∀ stack rest, reduceTokens scope 0 s stack (tokens ++ rest) =
    reduceTokens scope 0 s (slots ++ stack) rest

theorem Pushes.append {front back : List Token} {slots above : List Slot}
    (first : Pushes scope s front slots) (second : Pushes scope s back above) :
    Pushes scope s (front ++ back) (above ++ slots) := fun stack rest => by
  rw [List.append_assoc, first, second, List.append_assoc]

theorem Pushes.then {tokens : List Token} {slots next : List Slot} {token : Token}
    (h : Pushes scope s tokens slots)
    (step : ∀ stack, reduceToken scope 0 s (slots ++ stack) token = .next (next ++ stack)) :
    Pushes scope s (tokens ++ [token]) next := fun stack rest => by
  rw [List.append_assoc, h, List.singleton_append, reduceTokens_next (step stack)]

theorem reduceToken_unary {o : Operator} (isUnary : o.isUnary = true) {slot : Slot} {v : ExprValue}
    (read : slot.read scope s = some v) (limit : Nat) (stack : List Slot) :
    reduceToken scope limit s (slot :: stack) (.op o) = .next (.value (unary o v) :: stack) := by
  cases o <;> first | (simp [reduceToken, Operator.isUnary, read]; done) | cases isUnary

theorem reduceToken_binary {o : Operator} (isBinary : o.isBinary = true) (other : o ≠ .assign)
    {left right : Slot} {a b v : ExprValue} (first : left.read scope s = some a)
    (second : right.read scope s = some b) {limit : Nat} (outcome : binary limit o a b = .ok v)
    (stack : List Slot) :
    reduceToken scope limit s (right :: left :: stack) (.op o) = .next (.value v :: stack) := by
  have unary : o.isUnary = false := by cases o <;> first | rfl | cases isBinary
  rw [reduceToken, if_neg (by rw [unary]; exact Bool.false_ne_true)]
  · simp only [popValue, first, second, outcome]
  · exact other

theorem reduceToken_call {f : Function} {slots : List Slot} {values : List ExprValue}
    (h : Slot.Hold scope s slots values.reverse) {v : ExprValue} (outcome : f.apply values = some v)
    (limit : Nat) (stack : List Slot) :
    reduceToken scope limit s (slots ++ .args :: stack) (.call f) = .next (.value v :: stack) := by
  have taken := takeArgs_hold h [] stack
  rw [List.reverse_reverse, List.append_nil] at taken
  simp only [reduceToken, taken, outcome]

namespace Expression

mutual

/-- The postfix form of an expression leaves one slot, which reads as the value of the expression. A
variable is left as it is until an operator asks for it. -/
theorem pushes_postfixForm (e : Expression) (isPure : e.isPure = true)
    (known : ∀ name ∈ e.vars, (scope.lookup s name).isSome = true) :
    ∃ v slot, e.value? (scope.lookup s) = some v ∧ slot.read scope s = some v ∧
      Pushes scope s e.postfixForm [slot] := by
  match e with
  | .atom a =>
    cases a with
    | var name =>
      obtain ⟨v, found⟩ := Option.isSome_iff_exists.mp (known name List.mem_cons_self)
      exact ⟨v, .var name, found, found, fun _ _ => rfl⟩
    | number | string | bool | null => exact ⟨_, .value _, rfl, rfl, fun _ _ => rfl⟩
  | .unary o operand =>
    obtain ⟨v, slot, value, read, pushes⟩ := pushes_postfixForm operand isPure known
    refine ⟨_, .value _, ?_, rfl, pushes.then (reduceToken_unary o.property read 0)⟩
    rw [value?, value]
    rfl
  | .binary o left right =>
    simp only [Expression.isPure, Bool.and_eq_true, decide_eq_true_eq] at isPure
    obtain ⟨⟨other, pureLeft⟩, pureRight⟩ := isPure
    obtain ⟨a, slotA, valueA, readA, pushesA⟩ := pushes_postfixForm left pureLeft
      fun name member => known name (List.mem_append_left _ member)
    obtain ⟨b, slotB, valueB, readB, pushesB⟩ := pushes_postfixForm right pureRight
      fun name member => known name (List.mem_append_right _ member)
    obtain ⟨v, outcome⟩ := exists_of_binary o.property other a b
    refine ⟨v, .value v, ?_, rfl, (pushesA.append pushesB).then
      (reduceToken_binary o.property other readA readB outcome)⟩
    rw [value?, valueA, valueB]
    exact congrArg Except.toOption outcome
  | .call f args =>
    simp only [Expression.isPure, Bool.and_eq_true, Bool.not_eq_true', List.isEmpty_eq_false_iff]
      at isPure
    obtain ⟨some', pureArgs⟩ := isPure
    obtain ⟨values, slots, found, size, hold, pushes⟩ :=
      pushes_postfixFormAll args pureArgs known
    have given : values ≠ [] := fun empty =>
      some' (List.length_eq_zero_iff.mp (size.symm.trans (congrArg List.length empty)))
    obtain ⟨v, outcome⟩ := f.exists_of_apply given
    have marked : Pushes scope s [Token.args] [.args] := fun _ _ => rfl
    refine ⟨v, .value v, ?_, rfl, (marked.append pushes).then fun stack => ?_⟩
    · rw [value?, found]
      exact outcome
    · rw [List.append_assoc]
      exact reduceToken_call hold outcome 0 stack

theorem pushes_postfixFormAll (args : List Expression) (isPure : isPureAll args = true)
    (known : ∀ name ∈ varsAll args, (scope.lookup s name).isSome = true) :
    ∃ values slots, values? (scope.lookup s) args = some values ∧ values.length = args.length ∧
      Slot.Hold scope s slots values.reverse ∧ Pushes scope s (postfixFormAll args) slots := by
  match args with
  | [] => exact ⟨[], [], rfl, rfl, .nil, fun _ _ => rfl⟩
  | e :: rest =>
    rw [isPureAll, Bool.and_eq_true] at isPure
    obtain ⟨v, slot, value, read, pushes⟩ := pushes_postfixForm e isPure.1
      fun name member => known name (List.mem_append_left _ member)
    obtain ⟨values, slots, found, size, hold, pushesAll⟩ := pushes_postfixFormAll rest isPure.2
      fun name member => known name (List.mem_append_right _ member)
    refine ⟨v :: values, slots ++ [slot], ?_, congrArg (· + 1) size, ?_, pushes.append pushesAll⟩
    · rw [values?, value, found]
      rfl
    · rw [List.reverse_cons]
      exact List.rel_append hold (.cons read .nil)

end

end Expression

/-- The postfix form of an expression that assigns nothing evaluates to the value of the expression,
without an effect on the state. Where it is assigned to a local variable, the only effect is that
the variable is assigned its value, and the statement has no value. -/
theorem reduceStatement_postfixForm (scope : Scope σ) (s : σ) (e : Expression)
    (isPure : e.isPure = true) (known : ∀ name ∈ e.vars, (scope.lookup s name).isSome = true) :
    ∃ v, e.value? (scope.lookup s) = some v ∧
      reduceStatement scope 0 s e.postfixForm = (some v, s) ∧
      ∀ target name, target.localName = some name →
        reduceStatement scope 0 s (e.assignment target).postfixForm =
          (none, scope.assign s name v) := by
  obtain ⟨v, slot, value, read, pushes⟩ := e.pushes_postfixForm isPure known
  refine ⟨v, value, ?_, fun target name isLocal => ?_⟩
  · have reduced := pushes [] []
    rw [List.append_nil] at reduced
    rw [reduceStatement, reduced]
    simp only [reduceTokens, List.append_nil, read]
  · have named : Pushes scope s [Token.var target] [.var target] := fun _ _ => rfl
    have reduced := (named.append pushes) [] [.op .assign]
    have assigns : reduceToken scope 0 s [slot, .var target] (.op .assign) =
        .stop [] (scope.assign s name v) := by
      simp only [reduceToken, popValue, read, targetName, isLocal]
      rfl
    have tokens : (e.assignment target).postfixForm =
        [Token.var target] ++ e.postfixForm ++ [.op .assign] := rfl
    rw [reduceStatement, tokens, reduced, List.append_nil]
    simp only [List.cons_append, List.nil_append, reduceTokens, assigns]

end

/-- A scope that keeps what is assigned and reported, with a value for every variable. -/
def ledger : Scope (List (String × ExprValue)) where
  lookup _ name := some (if name = .path [.key "name"] then .string "Ann" else .null)
  assign entries name v := (name, v) :: entries
  report entries message := (message, .null) :: entries

def greeting : Expression :=
  .call .str [.binary .add (.atom (.string "Dear ")) (.atom (.var (.path [.key "name"]))),
    .unary .logicalNot (.atom (.var (.path [.key "title"])))]

theorem reduceStatement_postfixForm_greeting :
    greeting.isPure = true ∧ (∀ name ∈ greeting.vars, (ledger.lookup [] name).isSome = true) ∧
      reduceStatement ledger 0 [] greeting.postfixForm = (some (.string "Dear Ann"), []) ∧
      reduceStatement ledger 0 [] (greeting.assignment (.path [.key "@g"])).postfixForm =
        (none, [("@g", .string "Dear Ann")]) := by
  have isPure : greeting.isPure = true := rfl
  have known : ∀ name ∈ greeting.vars, (ledger.lookup [] name).isSome = true := fun _ _ => rfl
  obtain ⟨v, value, reduced, assigned⟩ := reduceStatement_postfixForm ledger [] greeting isPure known
  have found : greeting.value? (ledger.lookup []) = some (.string "Dear Ann") := rfl
  cases found.symm.trans value
  exact ⟨isPure, known, reduced, assigned (.path [.key "@g"]) "@g" rfl⟩

end JsonTemplate.Expr

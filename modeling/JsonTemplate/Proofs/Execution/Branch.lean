import JsonTemplate.Plugin.Core
import JsonTemplate.Proofs.Execution.Step

namespace JsonTemplate

namespace BoolOp

def apply : BoolOp → Bool → Bool → Bool
  | and, a, b => a && b
  | or, a, b => a || b

def deciding : BoolOp → Bool
  | and => false
  | or => true

theorem apply_deciding (o : BoolOp) (b : Bool) : o.apply o.deciding b = o.deciding := by
  cases o <;> rfl

theorem apply_same (o : BoolOp) (a : Bool) : o.apply a a = a := by
  cases o
  · exact Bool.and_self a
  · exact Bool.or_self a

theorem apply_assoc (o : BoolOp) (a b c : Bool) :
    o.apply (o.apply a b) c = o.apply a (o.apply b c) := by
  cases o
  · exact Bool.and_assoc a b c
  · exact Bool.or_assoc a b c

theorem apply_deciding_of_ne {o other : BoolOp} (different : other ≠ o) :
    other.apply o.deciding (!o.deciding) = !o.deciding := by
  cases o <;> cases other <;> first | rfl | exact absurd rfl different

end BoolOp

/-- The value of a chain whose operators are applied from left to right, each to all that stands
before it. The tests after the first one come with the operators before them. -/
def leftGrouped (first : Bool) (rest : List (BoolOp × Bool)) : Bool :=
  rest.foldl (fun value link => link.1.apply value link.2) first

/-- The value of a chain where each operator is applied to all that stands after it. -/
def rightGrouped : Bool → List (BoolOp × Bool) → Bool
  | first, [] => first
  | first, (o, test) :: rest => o.apply first (rightGrouped test rest)

theorem leftGrouped_cons (first : Bool) (o : BoolOp) (test : Bool) (rest : List (BoolOp × Bool)) :
    leftGrouped first ((o, test) :: rest) = leftGrouped (o.apply first test) rest := rfl

theorem leftGrouped_eq_rightGrouped {o : BoolOp} (first : Bool) {rest : List (BoolOp × Bool)}
    (alike : ∀ link ∈ rest, link.1 = o) : leftGrouped first rest = rightGrouped first rest := by
  -- The value of the tests that were done goes into the first one of the rest.
  induction rest generalizing first with
  | nil => rfl
  | cons link rest ih =>
    obtain ⟨other, test⟩ := link
    obtain rfl : other = o := alike _ List.mem_cons_self
    have later : ∀ link ∈ rest, link.1 = other :=
      fun link member => alike link (List.mem_cons_of_mem _ member)
    rw [leftGrouped_cons, ih _ later, rightGrouped]
    cases rest with
    | nil => rfl
    | cons next rest =>
      obtain ⟨again, following⟩ := next
      obtain rfl : again = other := later _ List.mem_cons_self
      rw [rightGrouped, rightGrouped, BoolOp.apply_assoc]

theorem leftGrouped_same (value : Bool) (ops : List BoolOp) :
    leftGrouped value (ops.map fun o => (o, value)) = value := by
  induction ops with
  | nil => rfl
  | cons o ops ih => rw [List.map_cons, leftGrouped_cons, BoolOp.apply_same, ih]

theorem leftGrouped_deciding {o : BoolOp} {ops : List BoolOp}
    (kept : leftGrouped o.deciding (ops.map fun other => (other, !o.deciding)) = o.deciding) :
    ∀ other ∈ ops, other = o := by
  induction ops with
  | nil => nofun
  | cons next ops ih =>
    rw [List.map_cons, leftGrouped_cons] at kept
    by_cases same : next = o
    · rw [same, BoolOp.apply_deciding] at kept
      intro other member
      rcases List.mem_cons.mp member with rfl | member
      · exact same
      · exact ih kept other member
    · rw [BoolOp.apply_deciding_of_ne same, leftGrouped_same] at kept
      exact absurd kept (by cases o <;> decide)

theorem grouped_alike_iff (ops : List BoolOp) :
    (∀ first tests, leftGrouped first (ops.zip tests) = rightGrouped first (ops.zip tests)) ↔
      ∀ o ∈ ops, ∀ other ∈ ops, other = o := by
  constructor
  · intro agree
    cases ops with
    | nil => nofun
    | cons o ops =>
      have agreed := agree o.deciding ((o :: ops).map fun _ => !o.deciding)
      have zipped : (o :: ops).zip ((o :: ops).map fun _ => !o.deciding) =
          (o :: ops).map fun other => (other, !o.deciding) := by
        rw [List.zip_map_right, List.zip_eq_zipWith, List.zipWith_self, List.map_map]
        rfl
      have decided : rightGrouped o.deciding ((o :: ops).map fun other => (other, !o.deciding)) =
          o.deciding := BoolOp.apply_deciding o _
      rw [zipped, decided] at agreed
      have same := leftGrouped_deciding agreed
      intro one member other among
      rw [same one member, same other among]
  · intro alike first tests
    cases ops with
    | nil => rfl
    | cons o ops =>
      refine leftGrouped_eq_rightGrouped (o := o) first fun link member => ?_
      exact alike o List.mem_cons_self _ (List.of_mem_zip member).1

namespace Step

theorem chainFrom_grouped (truth : VarName → Bool) (soFar : Bool) (vars : List VarName)
    (ops : List BoolOp) :
    chainFrom truth soFar vars ops = rightGrouped soFar (ops.zip (vars.map truth)) := by
  induction vars generalizing soFar ops with
  | nil => cases ops <;> rfl
  | cons v vars ih =>
    cases ops with
    | nil => rfl
    | cons o ops =>
      rw [List.map_cons, List.zip_cons_cons, rightGrouped, ← ih]
      cases o <;> cases soFar <;> rfl

theorem runTree_block {c : Catalog} {nested : Nested} {place : Text.Position} {o : Opener}
    {body : List Tree} {tail : Tail} {ctx : Context} {taken : Bool} {next : Context → Context}
    (opened : ∀ begun, count { ctx with place } = (.ok (), begun) →
      entry c o begun = (.ok (if taken then .inside else .skip), next begun)) :
    runTree c nested (.block place o body tail) ctx =
      instruction place o.source (fun begun =>
        (if taken then runTrees c nested body else runTail c nested tail) (next begun)) ctx := by
  rw [runTree]
  refine instruction_congr fun begun counted => (bind_ok (opened begun counted)).trans ?_
  cases taken <;> rfl

/-- The value of a chain of variables in a state, its operators grouped by `group`. -/
def chainValue (group : Bool → List (BoolOp × Bool) → Bool) (ctx : Context) (v : VarName)
    (vars : List VarName) (ops : List BoolOp) : Bool :=
  let truth (w : VarName) : Bool := (ctx.resolve w).isTruthy
  group (truth v) (ops.zip (vars.map truth))

theorem entry_ifChain (c : Catalog) (v : VarName) (vars : List VarName) (ops : List BoolOp)
    (ctx : Context) :
    entry c (.ifChain (v :: vars) ops) ctx =
      (.ok (if chainValue rightGrouped ctx v vars ops then .inside else .skip), ctx) := by
  rw [chainValue, ← chainFrom_grouped]
  rfl

/-- The first branch of an `.if` is taken exactly where the chain of its variables is true with its
operators grouped to the right. Grouped to the left the chain has this value for all tests exactly
where its operators are all the same. -/
theorem ifChain_groups_right (c : Catalog) (nested : Nested) (place : Text.Position) (v : VarName)
    (vars : List VarName) (ops : List BoolOp) (body : List Tree) (tail : Tail) (ctx : Context) :
    runTree c nested (.block place (.ifChain (v :: vars) ops) body tail) ctx =
        instruction place (Opener.ifChain (v :: vars) ops).source
          (if chainValue rightGrouped ctx v vars ops then runTrees c nested body
            else runTail c nested tail) ctx ∧
      ((∀ first tests, leftGrouped first (ops.zip tests) = rightGrouped first (ops.zip tests)) ↔
        ∀ o ∈ ops, ∀ other ∈ ops, other = o) := by
  refine ⟨runTree_block fun begun counted => ?_, grouped_alike_iff ops⟩
  obtain ⟨limiter, rfl⟩ := count_begun counted
  exact entry_ifChain c v vars ops _

def onlyThird : Context := .start .strict none (.value (.object [("c", .bool true)]))

def mixedChain : String := "\x7b.if a && b || c\x7dyes\x7b.or\x7dno\x7b.end\x7d"

/-- The first operator of a chain decides it where the second one would give it another value. -/
theorem ifChain_stops_early :
    chainValue leftGrouped onlyThird (.path [.key "a"]) [.path [.key "b"], .path [.key "c"]] [.and, .or] =
        true ∧
      (onlyThird.runSource .core mixedChain).2.output = "no" := by
  decide +kernel

end Step

end JsonTemplate

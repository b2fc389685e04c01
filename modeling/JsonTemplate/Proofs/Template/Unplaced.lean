import JsonTemplate.Proofs.Template.Canonical

namespace JsonTemplate

open JsonTemplate.Text

namespace Tree

mutual

/-- The tree with its places taken out and all else as it is. -/
def unplaced : Tree → Tree
  | leaf _ l => leaf .nowhere l
  | block _ o body tail => block .nowhere o (unplacedAll body) (unplacedTail tail)
  | repeated _ var body alternates tail =>
    repeated .nowhere var (unplacedAll body) (unplacedAlternates alternates) (unplacedTail tail)
  | macroDef _ name body close => macroDef .nowhere name (unplacedAll body) (eraseNext close)

def unplacedAll : List Tree → List Tree
  | [] => []
  | t :: rest => unplaced t :: unplacedAll rest

def unplacedTail : Tail → Tail
  | .unclosed => .unclosed
  | .closed _ => .closed .nowhere
  | .or _ call body tail => .or .nowhere call (unplacedAll body) (unplacedTail tail)

def unplacedAlternates : Alternates → Alternates
  | .none => .none
  | .between _ body implied => .between .nowhere (unplacedAll body) (eraseNext implied)

end

theorem exists_of_unplacedAll {trees after : List Tree} {u : Tree}
    (h : unplacedAll trees = u :: after) :
    ∃ t rest, trees = t :: rest ∧ t.unplaced = u ∧ unplacedAll rest = after := by
  cases trees with
  | nil => cases h
  | cons t rest => exact ⟨t, rest, rfl, (List.cons.inj h).1, (List.cons.inj h).2⟩

theorem exists_of_unplaced_macroDef {t : Tree} {place stop : Position} {name : String}
    {inner : List Tree} (h : t.unplaced = .macroDef place name inner (some stop)) :
    ∃ place body close,
      t = .macroDef place name body (some close) ∧ unplacedAll body = inner := by
  cases t with
  | macroDef place body name close =>
    cases close with
    | none => cases h
    | some close =>
      cases h
      exact ⟨place, _, close, rfl, rfl⟩
  | leaf | block | repeated => cases h

def ops (items : List Instruction) : List Op := items.map Instruction.op

@[simp] theorem ops_cons (i : Instruction) (rest : List Instruction) :
    ops (i :: rest) = i.op :: ops rest := rfl

@[simp] theorem ops_append (front back : List Instruction) :
    ops (front ++ back) = ops front ++ ops back := List.map_append

-- The canonical form tells where the list of a tree ends, so each side is split at the same place.
mutual

theorem unplaced_of_ops {t u : Tree} (shape : t.canonical = u.canonical) {after rest : List Op}
    (same : ops t.linear ++ after = ops u.linear ++ rest) :
    t.unplaced = u.unplaced ∧ after = rest := by
  match t with
  | leaf _ l =>
    cases u with
    | leaf => simp_all [ops, linear, unplaced]
    | block | repeated | macroDef => cases shape
  | block _ o body tail =>
    cases u with
    | block _ o' body' tail' =>
      simp only [canonical, block.injEq] at shape
      simp only [linear, ops_cons, ops_append, List.cons_append, List.append_assoc, List.cons.injEq,
        Op.opening.injEq] at same
      obtain ⟨bodies, same'⟩ := unplacedAll_of_ops shape.2.2.1 same.2
      obtain ⟨tails, done⟩ := unplacedTail_of_ops shape.2.2.2 same'
      exact ⟨by simp only [unplaced, same.1, bodies, tails], done⟩
    | leaf | repeated | macroDef => cases shape
  | repeated _ var body alternates tail =>
    cases u with
    | repeated _ var' body' alternates' tail' =>
      simp only [canonical, repeated.injEq] at shape
      simp only [linear, ops_cons, ops_append, List.cons_append, List.append_assoc,
        List.cons.injEq] at same
      obtain ⟨bodies, same'⟩ := unplacedAll_of_ops shape.2.2.1 same.2
      obtain ⟨betweens, same''⟩ := unplacedAlternates_of_ops shape.2.2.2.1 same'
      obtain ⟨tails, done⟩ := unplacedTail_of_ops shape.2.2.2.2 same''
      exact ⟨by simp only [unplaced, shape.2.1, bodies, betweens, tails], done⟩
    | leaf | block | macroDef => cases shape
  | macroDef _ name body close =>
    cases u with
    | macroDef _ name' body' close' =>
      simp only [canonical, macroDef.injEq] at shape
      simp only [linear, ops_cons, ops_append, List.cons_append, List.append_assoc,
        List.cons.injEq] at same
      obtain ⟨bodies, same'⟩ := unplacedAll_of_ops shape.2.2.1 same.2
      refine ⟨by simp only [unplaced, shape.2.1, bodies, shape.2.2.2], ?_⟩
      cases close <;> cases close' <;> simp_all [eraseNext, ops]
    | leaf | block | repeated => cases shape

theorem unplacedAll_of_ops {trees others : List Tree}
    (shape : canonicalAll trees = canonicalAll others) {after rest : List Op}
    (same : ops (linearAll trees) ++ after = ops (linearAll others) ++ rest) :
    unplacedAll trees = unplacedAll others ∧ after = rest := by
  match trees with
  | [] =>
    cases others with
    | nil => exact ⟨rfl, same⟩
    | cons => cases shape
  | t :: trees =>
    cases others with
    | nil => cases shape
    | cons u others =>
      obtain ⟨first, later⟩ := List.cons.inj shape
      rw [linearAll_cons, linearAll_cons, ops_append, ops_append, List.append_assoc,
        List.append_assoc] at same
      obtain ⟨one, same'⟩ := unplaced_of_ops first same
      obtain ⟨others, done⟩ := unplacedAll_of_ops later same'
      exact ⟨by rw [unplacedAll, unplacedAll, one, others], done⟩

theorem unplacedTail_of_ops {tail other : Tail} (shape : canonicalTail tail = canonicalTail other)
    {after rest : List Op} (same : ops (linearTail tail) ++ after = ops (linearTail other) ++ rest) :
    unplacedTail tail = unplacedTail other ∧ after = rest := by
  match tail with
  | .unclosed =>
    cases other with
    | unclosed => exact ⟨rfl, same⟩
    | closed | or => cases shape
  | .closed _ =>
    cases other with
    | closed => exact ⟨rfl, (List.cons.inj same).2⟩
    | unclosed | or => cases shape
  | .or _ call body tail =>
    cases other with
    | or _ call' body' tail' =>
      simp only [canonicalTail, Tail.or.injEq] at shape
      simp only [linearTail, ops_cons, ops_append, List.cons_append, List.append_assoc,
        List.cons.injEq, Op.or.injEq] at same
      obtain ⟨bodies, same'⟩ := unplacedAll_of_ops shape.2.2.1 same.2
      obtain ⟨tails, done⟩ := unplacedTail_of_ops shape.2.2.2 same'
      exact ⟨by simp only [unplacedTail, same.1, bodies, tails], done⟩
    | unclosed | closed => cases shape

theorem unplacedAlternates_of_ops {alternates other : Alternates}
    (shape : canonicalAlternates alternates = canonicalAlternates other) {after rest : List Op}
    (same : ops (linearAlternates alternates) ++ after = ops (linearAlternates other) ++ rest) :
    unplacedAlternates alternates = unplacedAlternates other ∧ after = rest := by
  match alternates with
  | .none =>
    cases other with
    | none => exact ⟨rfl, same⟩
    | between => cases shape
  | .between _ body implied =>
    cases other with
    | between _ body' implied' =>
      simp only [canonicalAlternates, Alternates.between.injEq] at shape
      simp only [linearAlternates, ops_cons, List.cons_append, List.cons.injEq] at same
      obtain ⟨bodies, done⟩ := unplacedAll_of_ops shape.2.1 same.2
      exact ⟨by simp only [unplacedAlternates, bodies, shape.2.2], done⟩
    | none => cases shape

end

end Tree

theorem Template.unplaced_of_ops {t u : Template} (shape : t.canonical = u.canonical)
    (same : Tree.ops t.linear = Tree.ops u.linear) :
    Tree.unplacedAll t.body = Tree.unplacedAll u.body :=
  (Tree.unplacedAll_of_ops (congrArg Template.body shape) (by simpa [Template.linear] using same)).1

end JsonTemplate

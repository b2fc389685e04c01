import JsonTemplate.Proofs.Arguments
import JsonTemplate.Proofs.Assembly.Linear
import JsonTemplate.Template.Tree

namespace JsonTemplate

open JsonTemplate.Text

def Call.canonical (c : Call) : Call := { c with args := c.args.canonical }

def Leaf.canonical : Leaf → Leaf
  | text content => text content
  | output vars formatters => output vars (formatters.map Call.canonical)
  | bind name vars formatters => bind name vars (formatters.map Call.canonical)
  | object name bindings => object name bindings
  | eval program debug => eval program debug
  | includePartial name args debug => includePartial name args.canonical debug
  | inject target path args => inject target path args.canonical
  | brace left => brace left
  | blank kind => blank kind
  | comment content multiline => comment content multiline

def Opener.canonical : Opener → Opener
  | sectionOn var => sectionOn var
  | predicate call => predicate call.canonical
  | ifChain vars ops => ifChain vars ops
  | ifPredicate call => ifPredicate call.canonical
  | ifExpression program => ifExpression program

def Op.canonical : Op → Op
  | leaf l => leaf l.canonical
  | opening o => opening o.canonical
  | repeated var => repeated var
  | alternates => alternates
  | or call => or (call.map Call.canonical)
  | macroStart name => macroStart name
  | close => close
  | eof => eof

def Instruction.canonical (i : Instruction) : Instruction := ⟨.nowhere, i.op.canonical⟩

/-- No place where there was one. -/
def eraseNext (place : Option Position) : Option Position := place.map fun _ => .nowhere

namespace Tree

mutual

def canonical : Tree → Tree
  | leaf _ l => leaf .nowhere l.canonical
  | block _ o body tail => block .nowhere o.canonical (canonicalAll body) (canonicalTail tail)
  | repeated _ var body alternates tail =>
    repeated .nowhere var (canonicalAll body) (canonicalAlternates alternates) (canonicalTail tail)
  | macroDef _ name body close => macroDef .nowhere name (canonicalAll body) (eraseNext close)

def canonicalAll : List Tree → List Tree
  | [] => []
  | t :: rest => canonical t :: canonicalAll rest

def canonicalTail : Tail → Tail
  | .unclosed => .unclosed
  | .closed _ => .closed .nowhere
  | .or _ call body tail =>
    .or .nowhere (call.map Call.canonical) (canonicalAll body) (canonicalTail tail)

def canonicalAlternates : Alternates → Alternates
  | .none => .none
  | .between _ body implied => .between .nowhere (canonicalAll body) (eraseNext implied)

end

theorem canonicalAll_eq_map (trees : List Tree) : canonicalAll trees = trees.map canonical := by
  induction trees with
  | nil => rfl
  | cons t rest ih => rw [canonicalAll, ih, List.map_cons]

end Tree

def Template.canonical (t : Template) : Template := ⟨Tree.canonicalAll t.body, eraseNext t.eof⟩

@[simp] theorem Call.canonical_canonical (c : Call) : c.canonical.canonical = c.canonical := by
  simp [canonical]

theorem Call.canonical_comp : Call.canonical ∘ Call.canonical = Call.canonical :=
  funext Call.canonical_canonical

theorem Leaf.canonical_canonical (l : Leaf) : l.canonical.canonical = l.canonical := by
  cases l with
  | output | bind => simp only [canonical, List.map_map, Call.canonical_comp]
  | includePartial | inject => simp only [canonical, Arguments.canonical_canonical]
  | text | object | eval | brace | blank | comment => rfl

theorem Opener.canonical_canonical (o : Opener) : o.canonical.canonical = o.canonical := by
  cases o with
  | predicate | ifPredicate => simp only [canonical, Call.canonical_canonical]
  | sectionOn | ifChain | ifExpression => rfl

theorem Op.canonical_canonical (op : Op) : op.canonical.canonical = op.canonical := by
  cases op with
  | leaf l => simp only [canonical, Leaf.canonical_canonical]
  | opening o => simp only [canonical, Opener.canonical_canonical]
  | or call => simp only [canonical, Option.map_map, Call.canonical_comp]
  | repeated | alternates | macroStart | close | eof => rfl

@[simp] theorem Call.canonical_source (c : Call) : c.canonical.source = c.source := by
  simp [source, canonical]

@[simp] theorem formattersSource_canonical (calls : List Call) :
    formattersSource (calls.map Call.canonical) = formattersSource calls := by
  simp [formattersSource, List.flatMap_map]

@[simp] theorem orSource_canonical (call : Option Call) :
    orSource (call.map Call.canonical) = orSource call := by
  cases call <;> simp [orSource]

@[simp] theorem Leaf.canonical_source (l : Leaf) : l.canonical.source = l.source := by
  cases l with
  | output | bind => simp only [canonical, source, formattersSource_canonical]
  | includePartial | inject => simp only [canonical, source, Arguments.canonical_join]
  | text | object | eval | brace | blank | comment => rfl

@[simp] theorem Opener.canonical_source (o : Opener) : o.canonical.source = o.source := by
  cases o <;> simp [canonical, source]

namespace Tree

mutual

theorem canonical_source : (t : Tree) → t.canonical.source = t.source
  | leaf _ l => Leaf.canonical_source l
  | block _ o body tail => by
    simp [canonical, source, canonical_sourceAll body, canonical_sourceTail tail]
  | repeated _ var body alternates tail => by
    simp [canonical, source, canonical_sourceAll body, canonical_sourceAlternates alternates,
      canonical_sourceTail tail]
  | macroDef _ name body close => by
    cases close <;> simp [canonical, source, canonical_sourceAll body, eraseNext]

theorem canonical_sourceAll : (trees : List Tree) → sourceAll (canonicalAll trees) = sourceAll trees
  | [] => rfl
  | t :: rest => by
    simp [canonicalAll, sourceAll, canonical_source t, canonical_sourceAll rest]

theorem canonical_sourceTail : (tail : Tail) → sourceTail (canonicalTail tail) = sourceTail tail
  | .unclosed => rfl
  | .closed _ => rfl
  | .or _ call body tail => by
    simp [canonicalTail, sourceTail, canonical_sourceAll body, canonical_sourceTail tail]

theorem canonical_sourceAlternates : (alternates : Alternates) →
    sourceAlternates (canonicalAlternates alternates) = sourceAlternates alternates
  | .none => rfl
  | .between _ body _ => by
    simp [canonicalAlternates, sourceAlternates, canonical_sourceAll body]

end

end Tree

theorem Template.canonical_source (t : Template) : t.canonical.source = t.source :=
  Tree.canonical_sourceAll t.body

namespace Tree

mutual

theorem linear_source : (t : Tree) → t.linear.flatMap Instruction.source = t.source
  | leaf _ l => by simp [linear, source, Instruction.source, Op.source]
  | block _ o body tail => by
    simp [linear, source, linearAll_source body, linearTail_source tail, Instruction.source,
      Op.source]
  | repeated _ var body alternates tail => by
    simp [linear, source, linearAll_source body, linearAlternates_source alternates,
      linearTail_source tail, Instruction.source, Op.source]
  | macroDef _ name body close => by
    cases close <;> simp [linear, source, linearAll_source body, Instruction.source, Op.source]

theorem linearAll_source : (trees : List Tree) →
    (linearAll trees).flatMap Instruction.source = sourceAll trees
  | [] => rfl
  | t :: rest => by simp [sourceAll, linear_source t, linearAll_source rest]

theorem linearTail_source : (tail : Tail) →
    (linearTail tail).flatMap Instruction.source = sourceTail tail
  | .unclosed => rfl
  | .closed _ => by simp [linearTail, sourceTail, Instruction.source]
  | .or _ call body tail => by
    simp [linearTail, sourceTail, linearAll_source body, linearTail_source tail,
      Instruction.source, Op.source]

theorem linearAlternates_source : (alternates : Alternates) →
    (linearAlternates alternates).flatMap Instruction.source = sourceAlternates alternates
  | .none => rfl
  | .between _ body _ => by
    simp [linearAlternates, sourceAlternates, linearAll_source body, Instruction.source]

end

end Tree

theorem Template.linear_source (t : Template) : t.linear.flatMap Instruction.source = t.source := by
  cases stop : t.eof <;>
    simp [linear, source, stop, Tree.linearAll_source, Instruction.source, Op.source]

end JsonTemplate

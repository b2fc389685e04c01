import JsonTemplate.Proofs.Expr.Expression

namespace JsonTemplate.Expr

namespace Operator

variable {o p : Operator}

theorem precedence_unary (h : o.isUnary = true) : o.precedence = 17 := by
  cases o <;> first | rfl | cases h

theorem precedence_binary (h : o.isBinary = true) : o.precedence < 17 := by
  cases o <;> first | decide | cases h

theorem groupsLeft_eq (first : o.isBinary = true) (second : p.isBinary = true)
    (same : o.precedence = p.precedence) : o.groupsLeft = p.groupsLeft := by
  revert first second same
  cases o <;> cases p <;> decide

end Operator

namespace Yard

def Leads (y : Yard) (tokens : List Token) (next : Yard) : Prop :=
  ∀ rest, y.run (tokens ++ rest) = next.run rest

theorem Leads.trans {x y z : Yard} {front back : List Token} (first : x.Leads front y)
    (second : y.Leads back z) : x.Leads (front ++ back) z := fun rest => by
  rw [List.append_assoc, first, second]

theorem leads_step {y next : Yard} {token : Token} (h : y.step token = .ok next) :
    y.Leads [token] next := fun rest => by
  rw [List.singleton_append, run, h]

def Held (level : Nat) (held : List Token) : Prop :=
  ∀ t ∈ held, ∃ o : Operator, t = .op o ∧ o ≠ .leftParen ∧ level ≤ o.precedence

theorem Held.nil (level : Nat) : Held level [] := nofun

theorem Held.mono {level lower : Nat} {held : List Token} (h : Held level held)
    (le : lower ≤ level) : Held lower held := fun t member => by
  obtain ⟨o, rfl, plain, bound⟩ := h t member
  exact ⟨o, rfl, plain, Nat.le_trans le bound⟩

theorem Held.concat {level : Nat} {held : List Token} {o : Operator} (h : Held level held)
    (plain : o ≠ .leftParen) (bound : level ≤ o.precedence) : Held level (held ++ [.op o]) := by
  intro t member
  rcases List.mem_append.mp member with member | member
  · exact h t member
  · rw [List.mem_singleton.mp member]
    exact ⟨o, rfl, plain, bound⟩

theorem Held.not_leftParen {level : Nat} {held : List Token} (h : Held level held) :
    ∀ t ∈ held, t.isOp .leftParen = false := fun t member => by
  obtain ⟨o, rfl, plain, -⟩ := h t member
  exact decide_eq_false plain

/-- What waits where an expression of a level begins: it is not a call, and it stays where a binary
operator of that level comes up. -/
structure Guarded (level : Nat) (waiting : List Token) : Prop where
  stays : ∀ o : Operator, o.isBinary = true → level ≤ o.precedence →
    ∀ top ∈ waiting.head?, yieldsTo o top = false
  noCall : ∀ f, waiting.head? ≠ some (.call f)

theorem Guarded.mono {level higher : Nat} {waiting : List Token} (h : Guarded level waiting)
    (le : level ≤ higher) : Guarded higher waiting :=
  ⟨fun o binary bound => h.stays o binary (Nat.le_trans le bound), h.noCall⟩

theorem guarded_nil (level : Nat) : Guarded level [] := ⟨nofun, nofun⟩

theorem guarded_leftParen (level : Nat) (waiting : List Token) :
    Guarded level (.op .leftParen :: waiting) := by
  refine ⟨fun o _ _ top member => ?_, nofun⟩
  cases member
  rfl

theorem yieldsTo_eq_false_iff {o top : Operator} (plain : top ≠ .leftParen) :
    yieldsTo o (.op top) = false ↔
      top.precedence ≤ o.precedence ∧ (top.precedence = o.precedence → o.groupsLeft = false) := by
  simp [yieldsTo, plain]

theorem guarded_binary {o : Operator} {level : Nat} (binary : o.isBinary = true)
    (right : if o.groupsLeft then o.precedence < level else o.precedence ≤ level)
    (waiting : List Token) : Guarded level (.op o :: waiting) := by
  have plain : o ≠ .leftParen := by rintro rfl; cases binary
  refine ⟨fun p other bound top member => ?_, nofun⟩
  cases member
  rw [yieldsTo_eq_false_iff plain]
  cases grouping : o.groupsLeft with
  | true =>
    rw [grouping, if_pos rfl] at right
    exact ⟨by omega, fun same => by omega⟩
  | false =>
    rw [grouping, if_neg Bool.false_ne_true] at right
    exact ⟨by omega, fun same => (Operator.groupsLeft_eq binary other same) ▸ grouping⟩

theorem guarded_unary {o : Operator} {level : Nat} (bound : 17 ≤ level)
    (waiting : List Token) : Guarded level (.op o :: waiting) := by
  refine ⟨fun p binary le => ?_, nofun⟩
  have small := Operator.precedence_binary binary
  omega

theorem release_append {goes : Token → Bool} {held waiting : List Token} (output : List Token)
    (all : ∀ t ∈ held, goes t = true) (stays : ∀ top ∈ waiting.head?, goes top = false) :
    release goes output (held ++ waiting) = (held.reverse ++ output, waiting) := by
  induction held generalizing output with
  | nil =>
    cases waiting with
    | nil => rfl
    | cons top rest => simp [release, stays top rfl]
  | cons t held ih =>
    have later := ih (t :: output) fun u member => all u (List.mem_cons_of_mem t member)
    rw [List.cons_append, release, if_pos (all t List.mem_cons_self), later]
    simp

theorem drain_held {level : Nat} {held : List Token} (output : List Token) (h : Held level held) :
    drain output held = .ok (held.reverse ++ output) := by
  induction held generalizing output with
  | nil => rfl
  | cons t held ih =>
    have later := ih (t :: output) fun u member => h u (List.mem_cons_of_mem t member)
    rw [drain, h.not_leftParen t List.mem_cons_self, if_neg Bool.false_ne_true, later]
    simp

theorem step_operation {o : Operator} (operation : o.isUnary = true ∨ o.isBinary = true) (y : Yard) :
    y.step (.op o) = .ok { y with
      output := (release (yieldsTo o) y.output y.waiting).1
      waiting := .op o :: (release (yieldsTo o) y.output y.waiting).2 } := by
  cases o <;> first | rfl | (rcases operation with h | h <;> cases h)

theorem yieldsTo_unary {o : Operator} (unary : o.isUnary = true) (t : Token) :
    yieldsTo o t = false := by
  cases t with
  | op p =>
    have strength := Operator.precedence_unary unary
    have bound : p.precedence ≤ 17 := by cases p <;> decide
    have grouping : o.groupsLeft = false := by cases o <;> first | rfl | cases unary
    simp [yieldsTo, strength, bound, grouping]
  | _ => rfl

theorem step_unary {o : Operator} (unary : o.isUnary = true) (output waiting : List Token)
    (statements : List (List Token)) :
    step ⟨output, waiting, statements⟩ (.op o) = .ok ⟨output, .op o :: waiting, statements⟩ := by
  have kept : release (yieldsTo o) output ([] ++ waiting) = ([].reverse ++ output, waiting) :=
    release_append output nofun fun top _ => yieldsTo_unary unary top
  rw [step_operation (.inl unary)]
  dsimp only
  rw [List.nil_append] at kept
  rw [kept]
  rfl

theorem step_binary {o : Operator} (binary : o.isBinary = true) {held waiting : List Token}
    (output : List Token) (statements : List (List Token))
    (all : ∀ t ∈ held, yieldsTo o t = true) (stays : ∀ top ∈ waiting.head?, yieldsTo o top = false) :
    step ⟨output, held ++ waiting, statements⟩ (.op o) =
      .ok ⟨held.reverse ++ output, .op o :: waiting, statements⟩ := by
  rw [step_operation (.inr binary)]
  dsimp only
  rw [release_append output all stays]

theorem step_comma {level : Nat} {held : List Token} (output waiting : List Token)
    (statements : List (List Token)) (h : Held level held) :
    step ⟨output, held ++ .op .leftParen :: waiting, statements⟩ (.op .comma) =
      .ok ⟨held.reverse ++ output, .op .leftParen :: waiting, statements⟩ := by
  have inside : (held ++ Token.op .leftParen :: waiting).any (·.isOp .leftParen) = true := by
    simp [Token.isOp]
  have all : ∀ t ∈ held, isReleased t = true := fun t member => by
    obtain ⟨o, rfl, plain, -⟩ := h t member
    exact decide_eq_true plain
  have stays : ∀ top ∈ (Token.op .leftParen :: waiting).head?, isReleased top = false :=
    fun top member => by cases member; rfl
  simp [step, inside, release_append output all stays]

/-- What a closing parenthesis leaves: the parenthesis is gone, and a call before it is done. -/
def closed (output : List Token) : List Token → List (List Token) → Yard
  | .call f :: waiting, statements => ⟨.call f :: output, waiting, statements⟩
  | waiting, statements => ⟨output, waiting, statements⟩

theorem step_rightParen {level : Nat} {held : List Token} (output waiting : List Token)
    (statements : List (List Token)) (h : Held level held) :
    step ⟨output, held ++ .op .leftParen :: waiting, statements⟩ (.op .rightParen) =
      .ok (closed (held.reverse ++ output) waiting statements) := by
  have all : ∀ t ∈ held, (!t.isOp .leftParen) = true := fun t member => by
    rw [h.not_leftParen t member]
    rfl
  have stays : ∀ top ∈ (Token.op .leftParen :: waiting).head?, (!top.isOp .leftParen) = false :=
    fun top member => by cases member; rfl
  rw [step, close, release_append output all stays]
  cases waiting with
  | nil => rfl
  | cons top rest => cases top <;> rfl

theorem closed_of_guarded {level : Nat} {waiting : List Token} (guarded : Guarded level waiting)
    (output : List Token) (statements : List (List Token)) :
    closed output waiting statements = ⟨output, waiting, statements⟩ := by
  cases waiting with
  | nil => rfl
  | cons top rest =>
    cases top with
    | call f => exact absurd rfl (guarded.noCall f)
    | _ => rfl

def Reads (tokens form : List Token) (level : Nat) (y : Yard) : Prop :=
  ∃ done held, Held level held ∧ done.reverse ++ held = form ∧
    y.Leads tokens { y with output := done ++ y.output, waiting := held ++ y.waiting }

theorem step_leftParen (output waiting : List Token) (statements : List (List Token)) :
    step ⟨output, waiting, statements⟩ (.op .leftParen) =
      .ok ⟨output, .op .leftParen :: waiting, statements⟩ := rfl

section

variable {output waiting : List Token} {statements : List (List Token)}

theorem reads_paren {inside : Written} (guarded : Guarded (Written.paren inside).level waiting)
    (read : Reads inside.tokens inside.expression.postfixForm inside.level
      ⟨output, .op .leftParen :: waiting, statements⟩) :
    Reads (Written.paren inside).tokens (Written.paren inside).expression.postfixForm
      (Written.paren inside).level ⟨output, waiting, statements⟩ := by
  obtain ⟨done, held, waits, form, leads⟩ := read
  have opens := leads_step (step_leftParen output waiting statements)
  have closes := step_rightParen (done ++ output) waiting statements waits
  rw [closed_of_guarded guarded] at closes
  refine ⟨held.reverse ++ done, [], .nil _, ?_, ?_⟩
  · simpa [Written.expression] using form
  · have all := (opens.trans leads).trans (leads_step closes)
    simpa [Written.tokens] using all

theorem reads_unary {o : UnaryOperator} {operand : Written}
    (tight : (Written.unary o operand).level ≤ operand.level)
    (read : Reads operand.tokens operand.expression.postfixForm operand.level
      ⟨output, .op o :: waiting, statements⟩) :
    Reads (Written.unary o operand).tokens (Written.unary o operand).expression.postfixForm
      (Written.unary o operand).level ⟨output, waiting, statements⟩ := by
  have strength := Operator.precedence_unary o.property
  have plain : o.val ≠ .leftParen := fun same => by rw [same] at strength; cases strength
  obtain ⟨done, held, waits, form, leads⟩ := read
  refine ⟨done, held ++ [Token.op o.val], (waits.mono tight).concat plain (Nat.le_refl _), ?_, ?_⟩
  · rw [Written.expression, Expression.postfixForm, ← form, List.append_assoc]
  · have all := (leads_step (step_unary o.property output waiting statements)).trans leads
    simpa [Written.tokens] using all

theorem levels_binary {o : Operator} {left right : Nat}
    (levels : (if o.groupsLeft then o.precedence ≤ left && o.precedence < right
      else o.precedence < left && o.precedence ≤ right : Bool) = true) :
    o.precedence ≤ left ∧ o.precedence ≤ right ∧
      (if o.groupsLeft then o.precedence < right else o.precedence ≤ right) ∧
      (o.groupsLeft = false → o.precedence < left) := by
  cases grouping : o.groupsLeft <;> simp [grouping] at levels <;> simp <;> omega

theorem reads_binary {o : BinaryOperator} {left right : Written}
    (levels : (if o.val.groupsLeft then
        o.val.precedence ≤ left.level && o.val.precedence < right.level
      else o.val.precedence < left.level && o.val.precedence ≤ right.level : Bool) = true)
    (guarded : Guarded (Written.binary o left right).level waiting)
    (readLeft : Reads left.tokens left.expression.postfixForm left.level
      ⟨output, waiting, statements⟩)
    (readRight : ∀ output, Reads right.tokens right.expression.postfixForm right.level
      ⟨output, .op o :: waiting, statements⟩) :
    Reads (Written.binary o left right).tokens
      (Written.binary o left right).expression.postfixForm (Written.binary o left right).level
      ⟨output, waiting, statements⟩ := by
  have plain : o.val ≠ .leftParen := fun same => by have h := o.property; rw [same] at h; cases h
  obtain ⟨-, lowerRight, -, strict⟩ := levels_binary levels
  obtain ⟨done, held, waits, form, leads⟩ := readLeft
  have yields : ∀ t ∈ held, yieldsTo o t = true := fun t member => by
    obtain ⟨p, rfl, notParen, bound⟩ := waits t member
    rw [← Bool.not_eq_false, yieldsTo_eq_false_iff notParen]
    intro ⟨le, grouping⟩
    have same : p.precedence = o.val.precedence := by
      have := (levels_binary levels).1
      omega
    have := strict (grouping same)
    omega
  have stays := guarded.stays o o.property (Nat.le_refl _)
  have operator := step_binary o.property (done ++ output) statements yields stays
  obtain ⟨done', held', waits', form', leads'⟩ := readRight (held.reverse ++ (done ++ output))
  refine ⟨done' ++ held.reverse ++ done, held' ++ [Token.op o.val],
    (waits'.mono lowerRight).concat plain (Nat.le_refl _), ?_, ?_⟩
  · rw [Written.expression, Expression.postfixForm, ← form, ← form']
    simp
  · have all := (leads.trans (leads_step operator)).trans leads'
    simpa [Written.tokens] using all

theorem reads_call {f : Function} {args : List Written}
    (read : Reads (Written.tokensAll args)
      (Expression.postfixFormAll (Written.expressionAll args)) 0
      ⟨.args :: output, .op .leftParen :: .call f :: waiting, statements⟩) :
    Reads (Written.call f args).tokens (Written.call f args).expression.postfixForm
      (Written.call f args).level ⟨output, waiting, statements⟩ := by
  obtain ⟨done, held, waits, form, leads⟩ := read
  have named : step ⟨output, waiting, statements⟩ (.call f) =
      .ok ⟨.args :: output, .call f :: waiting, statements⟩ := rfl
  have opens := leads_step (step_leftParen (.args :: output) (.call f :: waiting) statements)
  have closes := leads_step
    (step_rightParen (done ++ .args :: output) (.call f :: waiting) statements waits)
  refine ⟨.call f :: held.reverse ++ done ++ [.args], [], .nil _, ?_, ?_⟩
  · rw [Written.expression, Expression.postfixForm, ← form]
    simp
  · have all := (((leads_step named).trans opens).trans leads).trans closes
    simpa [Written.tokens, closed] using all

end

mutual

theorem reads_tokens (w : Written) (grouped : w.isGrouped = true) (y : Yard)
    (guarded : Guarded w.level y.waiting) :
    Reads w.tokens w.expression.postfixForm w.level y := by
  obtain ⟨output, waiting, statements⟩ := y
  match w with
  | .atom a =>
    refine ⟨[a.token], [], .nil _, rfl, leads_step ?_⟩
    cases a <;> rfl
  | .paren inside =>
    exact reads_paren guarded (reads_tokens inside grouped _ (guarded_leftParen _ _))
  | .unary o operand =>
    rw [Written.isGrouped, Bool.and_eq_true, decide_eq_true_eq] at grouped
    have strength := Operator.precedence_unary o.property
    exact reads_unary grouped.1
      (reads_tokens operand grouped.2 _ (guarded_unary (strength ▸ grouped.1) _))
  | .binary o left right =>
    rw [Written.isGrouped, Bool.and_eq_true, Bool.and_eq_true] at grouped
    obtain ⟨⟨levels, groupedLeft⟩, groupedRight⟩ := grouped
    obtain ⟨lower, -, tight, -⟩ := levels_binary levels
    exact reads_binary levels guarded (reads_tokens left groupedLeft _ (guarded.mono lower))
      fun output => reads_tokens right groupedRight _ (guarded_binary o.property tight waiting)
  | .call f args => exact reads_call (reads_arguments args grouped _ _ statements)

theorem reads_arguments (args : List Written) (grouped : Written.isGroupedAll args = true)
    (output waiting : List Token) (statements : List (List Token)) :
    Reads (Written.tokensAll args) (Expression.postfixFormAll (Written.expressionAll args)) 0
      ⟨output, .op .leftParen :: waiting, statements⟩ := by
  match args with
  | [] => exact ⟨[], [], .nil _, rfl, fun _ => rfl⟩
  | [w] =>
    rw [Written.isGroupedAll, Bool.and_eq_true] at grouped
    obtain ⟨done, held, waits, form, leads⟩ := reads_tokens w grouped.1
      ⟨output, .op .leftParen :: waiting, statements⟩ (guarded_leftParen _ _)
    refine ⟨done, held, waits.mono (Nat.zero_le _), ?_, leads⟩
    simpa [Written.expressionAll, Expression.postfixFormAll] using form
  | w :: next :: rest =>
    rw [Written.isGroupedAll, Bool.and_eq_true] at grouped
    obtain ⟨done, held, waits, form, leads⟩ := reads_tokens w grouped.1
      ⟨output, .op .leftParen :: waiting, statements⟩ (guarded_leftParen _ _)
    have comma := leads_step (step_comma (done ++ output) waiting statements waits)
    obtain ⟨done', held', waits', form', leads'⟩ := reads_arguments (next :: rest) grouped.2
      (held.reverse ++ (done ++ output)) waiting statements
    refine ⟨done' ++ held.reverse ++ done, held', waits', ?_, ?_⟩
    · rw [Written.expressionAll, Expression.postfixFormAll, ← form, ← form']
      simp
    · have all := (leads.trans comma).trans leads'
      simpa [Written.tokensAll] using all

end

theorem endStatement_form {done held form : List Token} {level : Nat} (waits : Held level held)
    (parts : done.reverse ++ held = form) (some' : form ≠ []) (statements : List (List Token)) :
    endStatement ⟨done, held, statements⟩ = .ok ⟨[], [], statements ++ [form]⟩ := by
  have whole : (held.reverse ++ done).reverse = form := by simpa using parts
  have full : (held.reverse ++ done).isEmpty = false := by
    rw [List.isEmpty_eq_false_iff]
    intro empty
    rw [empty] at whole
    exact some' whole.symm
  simp only [endStatement, drain_held done waits, Except.map, full, whole]
  rfl

theorem step_separator (separator : Separator) {held : List Token} {level : Nat}
    (waits : Held level held) (output : List Token) (statements : List (List Token)) :
    step ⟨output, held, statements⟩ (.op separator.operator) =
      endStatement ⟨output, held, statements⟩ := by
  cases separator with
  | semicolon => rfl
  | comma =>
    have outside : held.any (·.isOp .leftParen) = false :=
      List.any_eq_false.mpr fun t member => by simp [waits.not_leftParen t member]
    change step _ (.op .comma) = _
    rw [step]
    simp only [outside]
    rfl

theorem run_sequence (first : Written) (rest : List (Separator × Written))
    (grouped : ∀ w ∈ first :: rest.map Prod.snd, w.isGrouped = true)
    (statements : List (List Token)) :
    run ⟨[], [], statements⟩ (sequenceTokens first rest) =
      (statements ++ (first :: rest.map Prod.snd).map fun w => w.expression.postfixForm, none) := by
  -- One statement after the other; each separator leaves nothing but the finished statements.
  induction rest generalizing first statements with
  | nil =>
    obtain ⟨done, held, waits, form, leads⟩ := reads_tokens first (grouped first List.mem_cons_self)
      ⟨[], [], statements⟩ (guarded_nil _)
    have ends := endStatement_form waits form first.expression.postfixForm_ne_nil statements
    have all := leads []
    simp only [List.append_nil] at all
    simp [sequenceTokens, all, run, ends]
  | cons next rest ih =>
    obtain ⟨separator, w⟩ := next
    obtain ⟨done, held, waits, form, leads⟩ := reads_tokens first (grouped first List.mem_cons_self)
      ⟨[], [], statements⟩ (guarded_nil _)
    have ends := endStatement_form waits form first.expression.postfixForm_ne_nil statements
    have later := ih w (fun v member => grouped v (List.mem_cons_of_mem _ member))
      (statements ++ [first.expression.postfixForm])
    have divides := step_separator separator waits done statements
    rw [ends] at divides
    have all := leads (.op separator.operator :: sequenceTokens w rest)
    simp only [List.append_nil] at all
    have tokens : sequenceTokens first ((separator, w) :: rest) =
        first.tokens ++ .op separator.operator :: sequenceTokens w rest := by
      simp [sequenceTokens]
    rw [tokens, all, run, divides]
    simpa using later

end Yard

namespace Expression

mutual

theorem enclosed_expression (e : Expression) : e.enclosed.expression = e := by
  match e with
  | .atom a => rfl
  | .unary o operand => rw [enclosed, Written.expression, Written.expression, enclosed_expression]
  | .binary o left right =>
    rw [enclosed, Written.expression, Written.expression, Written.expression, enclosed_expression,
      enclosed_expression]
  | .call f args => rw [enclosed, Written.expression, enclosedAll_expression]

theorem enclosedAll_expression (args : List Expression) :
    Written.expressionAll (enclosedAll args) = args := by
  match args with
  | [] => rfl
  | e :: rest => rw [enclosedAll, Written.expressionAll, enclosed_expression, enclosedAll_expression]

end

mutual

theorem enclosed_isGrouped (e : Expression) : e.enclosed.isGrouped = true := by
  match e with
  | .atom a => rfl
  | .unary o operand =>
    have strength := Operator.precedence_unary o.property
    simp [enclosed, Written.isGrouped, Written.level, strength, enclosed_isGrouped operand]
  | .binary o left right =>
    have strength := Operator.precedence_binary o.property
    have below : o.val.precedence < 18 := by omega
    simp [enclosed, Written.isGrouped, Written.level, below, Nat.le_of_lt below,
      enclosed_isGrouped left, enclosed_isGrouped right]
  | .call f args => exact enclosedAll_isGrouped args

theorem enclosedAll_isGrouped (args : List Expression) :
    Written.isGroupedAll (enclosedAll args) = true := by
  match args with
  | [] => rfl
  | e :: rest =>
    rw [enclosedAll, Written.isGroupedAll, enclosed_isGrouped, enclosedAll_isGrouped]
    rfl

end

end Expression

/-- Every expression can be written. Of expressions that are written with the parentheses they need,
with separators between them, each becomes one statement, its postfix form. -/
theorem postfixStatements_sequence :
    (∀ e : Expression, ∃ w : Written, w.isGrouped = true ∧ w.expression = e) ∧
      ∀ (first : Written) (rest : List (Separator × Written)),
        (∀ w ∈ first :: rest.map Prod.snd, w.isGrouped = true) →
          postfixStatements (sequenceTokens first rest) =
            ((first :: rest.map Prod.snd).map fun w => w.expression.postfixForm, none) := by
  refine ⟨fun e => ⟨e.enclosed, e.enclosed_isGrouped, e.enclosed_expression⟩, ?_⟩
  intro first rest grouped
  exact Yard.run_sequence first rest grouped []

def name (s : String) : Written := .atom (.var (.path [.key s]))

def assigned : Written :=
  .binary .assign (name "@a") (.binary .power (.unary .minus (name "b"))
    (.paren (.binary .subtract (name "c") (.call .max [name "d", name "e"]))))

def subtracted : Written :=
  .binary .subtract (.binary .subtract (name "f") (name "g")) (name "h")

theorem postfixStatements_sequence_assigned :
    (∀ w ∈ [assigned, subtracted], w.isGrouped = true) ∧
      postfixStatements (sequenceTokens assigned [(.comma, subtracted)]) =
        ([[.var (.path [.key "@a"]), .var (.path [.key "b"]), .op .minus, .var (.path [.key "c"]),
            .args, .var (.path [.key "d"]), .var (.path [.key "e"]), .call .max, .op .subtract,
            .op .power, .op .assign],
          [.var (.path [.key "f"]), .var (.path [.key "g"]), .op .subtract,
            .var (.path [.key "h"]), .op .subtract]], none) := by
  have grouped : ∀ w ∈ [assigned, subtracted], w.isGrouped = true := by
    intro w member
    simp only [List.mem_cons, List.not_mem_nil, or_false] at member
    rcases member with rfl | rfl <;> rfl
  exact ⟨grouped, postfixStatements_sequence.2 assigned [(.comma, subtracted)] grouped⟩

end JsonTemplate.Expr

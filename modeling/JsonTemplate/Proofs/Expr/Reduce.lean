import JsonTemplate.Expr.Program

namespace JsonTemplate.Expr

variable {σ τ : Type}

/-- A relation between the states of two scopes that evaluation keeps. -/
structure Scope.Related (S : Scope σ) (T : Scope τ) (R : σ → τ → Prop) : Prop where
  lookup : ∀ {s t} (name : VarName), R s t → S.lookup s name = T.lookup t name
  assign : ∀ {s t} (name : String) (v : ExprValue),
    R s t → R (S.assign s name v) (T.assign t name v)
  report : ∀ {s t} (message : String), R s t → R (S.report s message) (T.report t message)

/-- The same outcome of a token, in related states. -/
inductive StepResult.Matches (R : σ → τ → Prop) : StepResult σ → StepResult τ → Prop where
  | next (stack : List Slot) : Matches R (.next stack) (.next stack)
  | stop (stack : List Slot) {s : σ} {t : τ} : R s t → Matches R (.stop stack s) (.stop stack t)

section

variable {S : Scope σ} {T : Scope τ} {R : σ → τ → Prop} {s : σ} {t : τ}

theorem Scope.Related.read (h : S.Related T R) (related : R s t) (slot : Slot) :
    slot.read S s = slot.read T t := by
  cases slot with
  | value v => rfl
  | var name => exact h.lookup name related
  | args => rfl

theorem Scope.Related.takeArgs (h : S.Related T R) (related : R s t) (found : List ExprValue)
    (stack : List Slot) : takeArgs S s found stack = takeArgs T t found stack := by
  induction stack generalizing found with
  | nil => cases found <;> rfl
  | cons slot rest ih =>
    cases slot with
    | args => rfl
    | value v => exact ih (v :: found)
    | var name =>
      have same := h.read related (.var name)
      rw [Expr.takeArgs, Expr.takeArgs, same]
      · cases (Slot.var name).read T t with
        | none => exact ih found
        | some v => exact ih (v :: found)
      all_goals nofun

theorem Scope.Related.popValue (h : S.Related T R) (related : R s t) (stack : List Slot) :
    popValue S s stack = popValue T t stack := by
  cases stack with
  | nil => rfl
  | cons slot rest => rw [Expr.popValue, Expr.popValue, h.read related slot]

theorem Scope.Related.reduceToken (h : S.Related T R) (related : R s t) (limit : Nat)
    (stack : List Slot) (token : Token) :
    (reduceToken S limit s stack token).Matches R (reduceToken T limit t stack token) := by
  have stops (rest : List Slot) (message : String) :
      StepResult.Matches R (.stop rest (S.report s message)) (.stop rest (T.report t message)) :=
    .stop rest (h.report message related)
  cases token with
  | number x => exact .next _
  | string text => exact .next _
  | bool b => exact .next _
  | null => exact .next _
  | var name => exact .next _
  | args => exact .next _
  | call f =>
    simp only [Expr.reduceToken, h.takeArgs related]
    split
    · exact .next _
    · exact stops _ _
  | op o =>
    by_cases assigns : o = .assign
    · subst assigns
      simp only [Expr.reduceToken, h.popValue related]
      split
      · exact .stop _ (h.assign _ _ related)
      · exact stops _ _
    · cases stack with
      | nil =>
        simp only [Expr.reduceToken, h.popValue related]
        split
        · exact .next _
        · split
          · split
            · exact .next _
            · exact stops _ _
          · exact stops _ _
      | cons top rest =>
        simp only [Expr.reduceToken, h.popValue related, h.read related]
        split
        · split <;> exact .next _
        · split
          · split
            · exact .next _
            · exact stops _ _
          · exact stops _ _

theorem Scope.Related.reduceTokens (h : S.Related T R) (related : R s t) (limit : Nat)
    (stack : List Slot) (tokens : List Token) :
    (reduceTokens S limit s stack tokens).1 = (reduceTokens T limit t stack tokens).1 ∧
      R (reduceTokens S limit s stack tokens).2 (reduceTokens T limit t stack tokens).2 := by
  induction tokens generalizing stack with
  | nil => exact ⟨rfl, related⟩
  | cons token rest ih =>
    have same := h.reduceToken related limit stack token
    rw [Expr.reduceTokens, Expr.reduceTokens]
    generalize Expr.reduceToken S limit s stack token = left at same
    generalize Expr.reduceToken T limit t stack token = right at same
    cases same with
    | next stack => exact ih stack
    | stop stack further => exact ⟨rfl, further⟩

theorem Scope.Related.reduceStatement (h : S.Related T R) (related : R s t) (limit : Nat)
    (statement : List Token) :
    (reduceStatement S limit s statement).1 = (reduceStatement T limit t statement).1 ∧
      R (reduceStatement S limit s statement).2 (reduceStatement T limit t statement).2 := by
  obtain ⟨same, further⟩ := h.reduceTokens related limit [] statement
  rw [Expr.reduceStatement, Expr.reduceStatement]
  generalize Expr.reduceTokens S limit s [] statement = left at same further
  generalize Expr.reduceTokens T limit t [] statement = right at same further
  obtain ⟨stack, s'⟩ := left
  obtain ⟨stack', t'⟩ := right
  cases same
  cases stack with
  | nil => exact ⟨rfl, further⟩
  | cons top rest =>
    have read := h.read further top
    dsimp only
    rw [read]
    cases top.read T t' with
    | none => exact ⟨rfl, h.report _ further⟩
    | some v => exact ⟨rfl, further⟩

theorem Scope.Related.reduceAll (h : S.Related T R) (limit : Nat) (result : Option ExprValue)
    (related : R s t) (statements : List (List Token)) :
    (reduceAll S limit result s statements).1 = (reduceAll T limit result t statements).1 ∧
      R (reduceAll S limit result s statements).2 (reduceAll T limit result t statements).2 := by
  induction statements generalizing result s t with
  | nil => exact ⟨rfl, related⟩
  | cons statement rest ih =>
    obtain ⟨same, further⟩ := h.reduceStatement related limit statement
    rw [Expr.reduceAll, Expr.reduceAll]
    dsimp only
    rw [same]
    exact ih _ further

end

end JsonTemplate.Expr

namespace JsonTemplate

theorem Program.reduce_related {σ τ : Type} {S : Expr.Scope σ} {T : Expr.Scope τ}
    {R : σ → τ → Prop} (h : S.Related T R) (p : Program) {s : σ} {t : τ} (related : R s t) :
    (p.reduce S s).1 = (p.reduce T t).1 ∧ R (p.reduce S s).2 (p.reduce T t).2 :=
  h.reduceAll p.maxStringLength none related p.statements

end JsonTemplate

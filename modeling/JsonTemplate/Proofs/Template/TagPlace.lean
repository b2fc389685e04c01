import JsonTemplate.Template.Tag

namespace JsonTemplate

open JsonTemplate.Text JsonTemplate.Pattern

def TagReading.outline (r : TagReading) : Nat × Reading := (r.problems.length, r.reading)

namespace Tag

variable (rules : Rules) (place other : Position)

theorem finish_outline (keyword : Keyword) (op : Op) (rest : List Char) :
    (finish place keyword op rest).outline = (finish other keyword op rest).outline := by
  unfold finish
  split <;> rfl

theorem afterSpace_outline (text : List Char) {next more : List Char → TagReading}
    (h : ∀ rest, (next rest).outline = (more rest).outline) :
    (afterSpace place text next).outline = (afterSpace other text more).outline := by
  unfold afterSpace
  split
  · exact h _
  · rfl

theorem afterBlank_outline (text : List Char) {next more : List Char → TagReading}
    (h : ∀ rest, (next rest).outline = (more rest).outline) :
    (afterBlank place text next).outline = (afterBlank other text more).outline := by
  unfold afterBlank
  split
  · exact h _
  · rfl

theorem afterLocal_outline (fault : CompileFault) (text : List Char)
    {next more : String → List Char → TagReading}
    (h : ∀ name rest, (next name rest).outline = (more name rest).outline) :
    (afterLocal place fault text next).outline = (afterLocal other fault text more).outline := by
  refine afterSpace_outline place other text fun body => ?_
  split
  · rfl
  · exact afterSpace_outline place other _ (h _)

theorem withPredicate_outline (name : String) (rest : List Char) (make : Call → Op) :
    (withPredicate rules place name rest make).outline =
      (withPredicate rules other name rest make).outline := by
  unfold withPredicate
  split
  · rfl
  · split
    · rfl
    · dsimp only
      split <;> rfl

theorem mapError_map {ε ζ α β : Type} (f : α → β) (g : ε → ζ) (x : Except ε α) :
    (x.map f).mapError g = (x.mapError g).map f := by
  cases x <;> rfl

theorem readFormatters_outline (anchor text : List Char) (fuel : Nat) :
    (readFormatters rules place anchor fuel text).mapError TagReading.outline =
      (readFormatters rules other anchor fuel text).mapError TagReading.outline := by
  induction fuel generalizing text with
  | zero => rfl
  | succ fuel ih =>
    unfold readFormatters
    split
    · rename_i more afterPipe same
      cases same
      dsimp only
      split
      · rfl
      · split
        · rfl
        · split
          · rfl
          · split
            · rfl
            · rw [mapError_map, mapError_map, ih]
    · rfl

theorem withFormatters_outline (anchor text : List Char) (make : List Call → Op) :
    (withFormatters rules place anchor text make).outline =
      (withFormatters rules other anchor text make).outline := by
  have same := readFormatters_outline rules place other anchor text (text.length + 1)
  unfold withFormatters
  cases first : readFormatters rules place anchor (text.length + 1) text with
  | error r =>
    cases second : readFormatters rules other anchor (text.length + 1) text with
    | error s =>
      rw [first, second] at same
      exact Except.error.inj same
    | ok => rw [first, second] at same; cases same
  | ok result =>
    cases second : readFormatters rules other anchor (text.length + 1) text with
    | error s => rw [first, second] at same; cases same
    | ok =>
      rw [first, second] at same
      cases same
      rfl

theorem readIfChain_outline (text : List Char) :
    (readIfChain place text).outline = (readIfChain other text).outline := by
  unfold readIfChain
  split
  · rfl
  · split
    · rfl
    · split
      · rfl
      · split <;> rfl

theorem readIf_outline (text : List Char) :
    (readIf rules place text).outline = (readIf rules other text).outline := by
  refine afterBlank_outline place other text fun body => ?_
  split
  · exact withPredicate_outline rules place other _ _ _
  · split
    · dsimp only
      split <;> rfl
    · exact readIfChain_outline place other body

theorem readSection_outline (keyword : Keyword) (text : List Char) (make : VarName → Op) :
    (readSection place keyword text make).outline =
      (readSection other keyword text make).outline := by
  unfold readSection
  split
  · rfl
  · exact finish_outline place other _ _ _

theorem readEval_outline (text : List Char) :
    (readEval rules place text).outline = (readEval rules other text).outline := by
  unfold readEval
  split
  · rfl
  · refine afterBlank_outline place other text fun content => ?_
    dsimp only
    generalize (if content.head? = some '#' then content.drop 1 else content) = body
    split <;> rfl

theorem readInclude_outline (text : List Char) :
    (readInclude place text).outline = (readInclude other text).outline := by
  unfold readInclude
  split
  · rfl
  · dsimp only
    split <;> rfl

theorem readOr_outline (text : List Char) :
    (readOr rules place text).outline = (readOr rules other text).outline := by
  unfold readOr
  split
  · split
    · rfl
    · exact withPredicate_outline rules place other _ _ _
  · exact finish_outline place other _ _ _

theorem readInstruction_outline (keyword : Keyword) (text : List Char) :
    (readInstruction rules place keyword text).outline =
      (readInstruction rules other keyword text).outline := by
  cases keyword with
  | alternates =>
    refine afterSpace_outline place other text fun body => ?_
    split
    · rfl
    · exact finish_outline place other _ _ _
  | bind =>
    simp only [readInstruction]
    refine afterLocal_outline place other _ text fun name body => ?_
    split
    · rfl
    · exact withFormatters_outline rules place other _ _ _
  | object =>
    simp only [readInstruction]
    refine afterLocal_outline place other _ text fun name body => ?_
    split <;> rfl
  | close | brace | blank => exact finish_outline place other _ _ _
  | eval => exact readEval_outline rules place other text
  | ifTest => exact readIf_outline rules place other text
  | includePartial => exact readInclude_outline place other text
  | inject =>
    simp only [readInstruction]
    refine afterLocal_outline place other _ text fun name body => ?_
    split <;> rfl
  | macroStart =>
    refine afterSpace_outline place other text fun body => ?_
    split
    · rfl
    · exact finish_outline place other _ _ _
  | or => exact readOr_outline rules place other text
  | repeated =>
    refine afterBlank_outline place other text fun body => ?_
    split
    · rfl
    · exact afterBlank_outline place other _ fun rest => readSection_outline place other _ rest _
  | sectionOn =>
    exact afterBlank_outline place other text fun body => readSection_outline place other _ body _

theorem readBody_outline (anchor text : List Char) :
    (readBody rules place anchor text).outline = (readBody rules other anchor text).outline := by
  unfold readBody
  split
  · rfl
  · split
    · unfold readOutput
      split
      · rfl
      · exact withFormatters_outline rules place other _ _ _
    · split
      · exact withPredicate_outline rules place other _ _ _
      · split
        · exact readInstruction_outline rules place other _ _
        · rfl

theorem read_outline (content : List Char) :
    (read rules place content).outline = (read rules other content).outline := by
  unfold read
  split
  · split
    · exact readBody_outline rules place other _ _
    · rfl
  · split
    · rfl
    · exact readBody_outline rules place other _ _

end Tag

end JsonTemplate

import JsonTemplate.Proofs.Template.Cut
import JsonTemplate.Proofs.Template.FormatterFault
import JsonTemplate.Plugin.Core
import JsonTemplate.Template.Event

namespace JsonTemplate

open JsonTemplate.Text JsonTemplate.Pattern

namespace Tag

variable {rules : Rules} {place : Position} {body : List Char} {vars : List VarName}
  {calls : List Call} {d : Diagnostic}

/-- Variables, and formatters that they go through, as they are written in a tag. Several variables
need a formatter. -/
def Prints (rules : Rules) (vars : List VarName) (calls : List Call) (body : List Char) : Prop :=
  ∃ list chain, body = list ++ chain ∧ VariableList vars list chain ∧
    FormatterChain rules calls chain ∧ (1 < vars.length → calls ≠ []) ∧ ¬['|', '|'] <+: chain

/-- A list of variables in a tag, with a formatter after it that offends against the grammar. -/
def Misprints (rules : Rules) (place : Position) (body : List Char) (d : Diagnostic) : Prop :=
  ∃ vars list chain, body = list ++ chain ∧ VariableList vars list chain ∧
    ¬['|', '|'] <+: chain ∧ Offends rules (place.forward list.length) chain d

theorem Prints.reads (h : Prints rules vars calls body) (place : Position) :
    readOutput rules place body body = accept (.leaf (.output vars calls)) := by
  obtain ⟨list, chain, rfl, isList, isChain, piped, noBars⟩ := h
  have some' (several : 1 < vars.length) : chain ≠ [] := by
    rintro rfl
    cases isChain
    exact piped several rfl
  rw [readOutput, isList.readVars isChain.ends noBars some']
  simp only [withFormatters, isChain.reads (Nat.lt_succ_of_le isChain.length_le)]

theorem Misprints.reads (h : Misprints rules place body d) :
    readOutput rules place body body = refuse d := by
  obtain ⟨vars, list, chain, rfl, isList, noBars, offends⟩ := h
  obtain ⟨more, rfl⟩ := offends.starts
  have whole : (list ++ '|' :: more).length - ('|' :: more).length = list.length := by
    simp only [List.length_append, Nat.add_sub_cancel]
  have inside : ('|' :: more).length ≤ (list ++ '|' :: more).length := by
    rw [List.length_append]
    exact Nat.le_add_left _ _
  rw [readOutput, isList.readVars (.inr ⟨more, rfl⟩) noBars fun _ => List.cons_ne_nil _ _]
  simp only [withFormatters, offends.reads (Nat.le_refl _) ⟨inside, by rw [whole]⟩]

theorem readFormatters_text {anchor : List Char} {c : Char} (other : c ≠ '|') (fuel : Nat)
    (text : List Char) : readFormatters rules place anchor fuel (c :: text) = .ok ([], c :: text) := by
  cases fuel with
  | zero => rfl
  | succ fuel =>
    rw [readFormatters]
    rintro _ more - same
    exact other (List.cons.inj same).1

theorem readOutput_cases (rules : Rules) (place : Position) (braceless : '}' ∉ body) :
    (∃ vars calls, Prints rules vars calls body) ∨ (∃ d, Misprints rules place body d) ∨
      readOutput rules place body body = ⟨[], .plain⟩ ∨
      readOutput rules place body body = ⟨[], .asText⟩ := by
  unfold readOutput
  cases read' : readVars body with
  | error _ => exact .inr (.inr (.inl rfl))
  | ok result =>
    obtain ⟨vars, chain⟩ := result
    by_cases ends : endsVars chain
    · obtain ⟨list, rfl, isList, noBars, piped⟩ := variableList_of_readVars read' ends
      have inside : '}' ∉ chain := fun member => braceless (List.mem_append_right list member)
      rcases chain_or_offends rules ends inside (place.forward list.length) with
        ⟨calls, isChain⟩ | ⟨d, offends⟩
      · refine .inl ⟨vars, calls, list, chain, rfl, isList, isChain, fun several empty => ?_, noBars⟩
        subst empty
        cases isChain
        exact piped several rfl
      · exact .inr (.inl ⟨d, vars, list, chain, rfl, isList, noBars, offends⟩)
    · refine .inr (.inr (.inr ?_))
      cases chain with
      | nil => exact absurd (.inl rfl) ends
      | cons c more =>
        have other : c ≠ '|' := fun same => ends (.inr ⟨more, by rw [same]⟩)
        simp only [withFormatters, readFormatters_text other]

theorem read_output (plain : rules.preprocess = false)
    (head : Stops ['.', '#', '^'].contains body) (place : Position) :
    read rules place body = readOutput rules place body body := by
  have starts {c : Char} (special : ['.', '#', '^'].contains c = true) (rest : List Char) :
      body ≠ c :: rest := by
    rintro rfl
    rw [head c rfl] at special
    cases special
  have pointless : keyword.split? body = none := by
    refine split?_keyword_none (head.mono fun c outside => ?_)
    simp only [List.contains_cons, Bool.or_eq_false_iff] at outside
    exact outside.1
  rw [read, plain, readBody, pointless]
  · rfl
  · exact fun rest => starts rfl rest
  · exact fun rest => starts rfl rest

end Tag

namespace Event

open Tag

theorem ofSource_inBraces {content : List Char} (h : Piece.IsContent content) (rules : Rules) :
    ofSource rules (inBraces content) =
      ofReading .start .start content (Tag.read rules .start content) ++
        [emit ⟨Position.start.after (inBraces content), .eof⟩] := by
  rw [ofSource, Piece.ofSource_inBraces h]
  simp only [List.flatMap_cons, List.flatMap_nil, List.append_nil, ofPiece]

section

variable (vocabulary : Vocabulary) (expr : ExprOptions) {body : List Char} (noLeft : '{' ∉ body)
  (noRight : '}' ∉ body) (head : Stops ['.', '#', '^'].contains body)

include noLeft noRight head

theorem outcome_inBraces :
    upToProblem (ofSource ⟨vocabulary, expr, false⟩ (inBraces body)) =
      upToProblem (ofReading .start .start body
          (readOutput ⟨vocabulary, expr, false⟩ .start body body) ++
        [emit ⟨Position.start.after (inBraces body), .eof⟩]) := by
  have noComment : ¬['#', '#'] <+: body := by
    rintro ⟨rest, rfl⟩
    exact absurd (head '#' rfl) (by decide)
  rw [ofSource_inBraces ⟨noLeft, noRight, noComment⟩, read_output rfl head]

/-- A tag without braces inside that starts like no other instruction is one of three things. It
prints variables through formatters exactly where these are what is written in it. It ends with a
problem exactly where a list of variables is written in it, with a pipe and a formatter that offends
against the grammar, and that is the problem of the first such formatter. In all other cases it is
a text. -/
theorem tag_prints_exactly :
    let rules : Rules := ⟨vocabulary, expr, false⟩
    let outcome := upToProblem (ofSource rules (inBraces body))
    let ended : Instruction := ⟨Position.start.after (inBraces body), .eof⟩
    (∀ vars calls, outcome = ([⟨.start, .leaf (.output vars calls)⟩, ended], none) ↔
        Prints rules vars calls body) ∧
      (∀ d, outcome = ([], some d) ↔ Misprints rules .start body d) ∧
      ((∀ vars calls, ¬Prints rules vars calls body) →
        (∀ d, ¬Misprints rules .start body d) →
        outcome = ([⟨.start, .leaf (.text (String.ofList (inBraces body)))⟩, ended], none)) := by
  intro rules outcome ended
  have printed {vars : List VarName} {calls : List Call} (h : Prints rules vars calls body) :
      outcome = ([⟨.start, .leaf (.output vars calls)⟩, ended], none) := by
    rw [show outcome = _ from outcome_inBraces vocabulary expr noLeft noRight head, h.reads .start]
    rfl
  have misprinted {d : Diagnostic} (h : Misprints rules .start body d) :
      outcome = ([], some d) := by
    rw [show outcome = _ from outcome_inBraces vocabulary expr noLeft noRight head, h.reads]
    rfl
  have text (h : readOutput rules .start body body = ⟨[], .plain⟩ ∨
      readOutput rules .start body body = ⟨[], .asText⟩) :
      outcome = ([⟨.start, .leaf (.text (String.ofList (inBraces body)))⟩, ended], none) := by
    rw [show outcome = _ from outcome_inBraces vocabulary expr noLeft noRight head]
    rcases h with h | h
    all_goals
      rw [h]
      rfl
  refine ⟨fun vars calls => ⟨fun same => ?_, printed⟩, fun d => ⟨fun same => ?_, misprinted⟩,
    fun unprinted correct => ?_⟩
  · rcases readOutput_cases rules .start noRight with ⟨_, _, h⟩ | ⟨_, h⟩ | h
    · cases (printed h).symm.trans same
      exact h
    · cases (misprinted h).symm.trans same
    · cases (text h).symm.trans same
  · rcases readOutput_cases rules .start noRight with ⟨_, _, h⟩ | ⟨_, h⟩ | h
    · cases (printed h).symm.trans same
    · cases (misprinted h).symm.trans same
      exact h
    · cases (text h).symm.trans same
  · rcases readOutput_cases rules .start noRight with ⟨vars, calls, h⟩ | ⟨d, h⟩ | h
    · exact absurd h (unprinted vars calls)
    · exact absurd h (correct d)
    · exact text h

end

def pairTag : List Char := ['a', ' ', ',', ' ', 'b'] ++ ['|', 'j', 's', 'o', 'n']

theorem tag_prints_exactly_pairTag :
    ('{' ∉ pairTag ∧ '}' ∉ pairTag ∧ Stops ['.', '#', '^'].contains pairTag) ∧
      upToProblem (ofSource ⟨Catalog.core.vocabulary, .unlimited, false⟩ (inBraces pairTag)) =
        ([⟨.start, .leaf (.output [.path [.key "a"], .path [.key "b"]] [⟨"json", Arguments.none.accept⟩])⟩,
          ⟨⟨1, 13⟩, .eof⟩], none) := by
  have noLeft : '{' ∉ pairTag := by decide
  have noRight : '}' ∉ pairTag := by decide
  have head : Stops ['.', '#', '^'].contains pairTag := .cons (by decide) _
  refine ⟨⟨noLeft, noRight, head⟩, ?_⟩
  have first : IsVariable ['a'] := .path 0 ['a'] [] (.inl (by decide)) nofun
  have second : IsVariable ['b'] := .path 0 ['b'] [] (.inl (by decide)) nofun
  have blank : ∀ c ∈ [' '], isTagSpace c = true := List.all_eq_true.mp (by decide)
  have list : VariableList [VarName.parse ['a'], VarName.parse ['b']]
      (['a'] ++ ([' '] ++ ',' :: ([' '] ++ ['b']))) ['|', 'j', 's', 'o', 'n'] :=
    .cons (.of_stops first (stops_comma blank _)) blank blank
      (.single (.of_stops second (.cons (by decide) _)))
  have call : FormatterCall ⟨Catalog.core.vocabulary, .unlimited, false⟩
      ⟨"json", Arguments.none.accept⟩ [] :=
    { name := by decide
      known := ⟨_, rfl, rfl, rfl⟩
      stops := .nil
      inside := nofun
      given := fun _ same asks => by cases same; cases asks }
  exact ((tag_prints_exactly Catalog.core.vocabulary .unlimited noLeft noRight head).1 _ _).mpr
    ⟨_, _, rfl, list, .cons call .nil, fun _ => List.cons_ne_nil _ _, by decide⟩

end Event

end JsonTemplate

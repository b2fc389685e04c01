import JsonTemplate.Proofs.Template.Coverage
import JsonTemplate.Proofs.Template.Modes
import JsonTemplate.Proofs.Template.VariableTag

namespace JsonTemplate

open JsonTemplate.Text JsonTemplate.Pattern JsonTemplate.Pattern.Recognizer

namespace Tag

def caret (preprocess : Bool) : List Char := if preprocess then ['^'] else []

/-- What a tag that prints or binds variables starts with, in two parts. The columns of problems are
counted without the first one, which is the word of a tag that binds. -/
inductive Opens (preprocess : Bool) : List Char → List Char → Prop where
  | prints : Opens preprocess [] (caret preprocess)
  | binds {word : List Char} :
      IsWord word →
      Opens preprocess (caret preprocess ++ ".var".toList) (' ' :: ('@' :: word) ++ [' '])

theorem Opens.line {preprocess : Bool} {lead intro : List Char} (h : Opens preprocess lead intro) :
    '\n' ∉ lead := by
  cases h with
  | prints => exact List.not_mem_nil
  | binds => cases preprocess <;> decide

/-- A tag that is cut at a formatter: the two parts it starts with, the variables, the formatters in
front of the one, its name, and what is after the name. -/
structure FormatterCut where
  lead : List Char
  intro : List Char
  list : List Char
  chain : List Char
  word : List Char
  rest : List Char

namespace FormatterCut

variable (c : FormatterCut)

def fromPipe : List Char := '|' :: (c.word ++ c.rest)

def front : List Char := c.intro ++ (c.list ++ c.chain)

def content : List Char := c.lead ++ (c.front ++ c.fromPipe)

structure Unknown (rules : Rules) : Prop where
  opens : Opens rules.preprocess c.lead c.intro
  isList : ∃ vars, VariableList vars c.list (c.chain ++ c.fromPipe)
  formatters : ∃ calls, FormatterChain rules calls c.chain
  isWord : IsWord c.word
  stop : Stops isWordChar c.rest
  unknown : rules.vocabulary.formatter? (String.ofList c.word) = none

def problem (place : Position) : Diagnostic :=
  (Diagnostic.compile .formatterUnknown (place.forward (c.front.length + 1))).withName
    (String.ofList c.word)

end FormatterCut

def Misnames (rules : Rules) (place : Position) (content : List Char) (d : Diagnostic) : Prop :=
  ∃ c : FormatterCut, c.content = content ∧ c.Unknown rules ∧ d = c.problem place

section

variable {rules : Rules} {place here : Position} {d : Diagnostic} {text anchor : List Char}
  (unknown : d.fault = .compile .formatterUnknown)

include unknown

theorem ofFormatter_of_unknown : d.ofFormatter = true := by
  rw [Diagnostic.ofFormatter, unknown]
  rfl

theorem covers_unknown (place : Position) (P : Prop) : Covers place (d ∈ ·.problems → P) where
  accept _ _ := nofun
  refuse _ _ other member := by
    rw [← List.mem_singleton.mp member, ofFormatter_of_unknown unknown] at other
    cases other
  doubt _ _ other _ member := by
    rw [← List.mem_singleton.mp member, ofFormatter_of_unknown unknown] at other
    cases other

theorem Offends.of_unknown (h : Offends rules here text d) :
    ∃ calls chain word rest, text = chain ++ '|' :: (word ++ rest) ∧
      FormatterChain rules calls chain ∧ IsWord word ∧ Stops isWordChar rest ∧
      rules.vocabulary.formatter? (String.ofList word) = none ∧
      d = (Diagnostic.compile .formatterUnknown (here.forward (chain.length + 1))).withName
        (String.ofList word) := by
  induction h with
  | malformed | lacking | rejecting => cases unknown
  | unknown isWord stop missing => exact ⟨[], [], _, _, rfl, .nil, isWord, stop, missing, rfl⟩
  | @later here call raw text d first _ ih =>
    obtain ⟨calls, chain, word, rest, rfl, formatters, isWord, stop, missing, rfl⟩ := ih unknown
    refine ⟨_, _, word, rest, ?_, .cons first formatters, isWord, stop, missing, ?_⟩
    · simp only [List.cons_append, List.append_assoc]
    · have counted : 1 + call.name.toList.length + raw.length + (chain.length + 1) =
          ('|' :: (call.name.toList ++ (raw ++ chain))).length + 1 := by
        simp only [List.length_cons, List.length_append]
        omega
      rw [Position.forward_forward, counted]

omit unknown in
theorem starts_of_withFormatters {make : List Call → Op}
    (member : d ∈ (withFormatters rules place anchor text make).problems) :
    ∃ more, text = '|' :: more := by
  cases text with
  | nil => cases member
  | cons c more =>
    by_cases pipe : c = '|'
    · exact ⟨more, by rw [pipe]⟩
    · rw [withFormatters, readFormatters_text pipe] at member
      cases member

omit unknown in
theorem offends_of_withFormatters {make : List Call → Op} (lead : List Char)
    (braceless : '}' ∉ text)
    (member : d ∈ (withFormatters rules place (lead ++ text) text make).problems) :
    Offends rules (place.forward lead.length) text d := by
  have placed : (lead ++ text).length - text.length = lead.length := by
    rw [List.length_append, Nat.add_sub_cancel]
  rcases chain_or_offends rules (.inr (starts_of_withFormatters member)) braceless
      (place.forward lead.length) with ⟨calls, chain⟩ | ⟨e, offends⟩
  · rw [withFormatters, chain.reads (Nat.lt_succ_of_le chain.length_le)] at member
    cases member
  · rw [withFormatters, offends.reads (Nat.le_refl _) ⟨by simp, by rw [placed]⟩] at member
    cases List.mem_singleton.mp member
    exact offends

theorem misnames_of_readVars {lead intro body rest : List Char} {vars : List VarName}
    {make : List Call → Op} (opens : Opens rules.preprocess lead intro) (braceless : '}' ∉ body)
    (read : readVars body = .ok (vars, rest))
    (member : d ∈ (withFormatters rules place (intro ++ body) rest make).problems) :
    Misnames rules place (lead ++ (intro ++ body)) d := by
  obtain ⟨list, rfl, isList, -⟩ :=
    variableList_of_readVars read (.inr (starts_of_withFormatters member))
  rw [← List.append_assoc] at member
  have offends := offends_of_withFormatters (intro ++ list)
    (fun inside => braceless (List.mem_append_right list inside)) member
  obtain ⟨calls, chain, word, rest, rfl, formatters, isWord, stop, missing, rfl⟩ :=
    offends.of_unknown unknown
  refine ⟨⟨lead, intro, list, chain, word, rest⟩, ?_,
    ⟨opens, ⟨vars, isList⟩, ⟨calls, formatters⟩, isWord, stop, missing⟩, ?_⟩
  · simp only [FormatterCut.content, FormatterCut.front, FormatterCut.fromPipe, List.append_assoc]
  · rw [FormatterCut.problem, Position.forward_forward]
    simp only [FormatterCut.front, List.length_append, Nat.add_assoc]

theorem misnames_of_readOutput (braceless : '}' ∉ text)
    (member : d ∈ (readOutput rules place (caret rules.preprocess ++ text) text).problems) :
    Misnames rules place (caret rules.preprocess ++ text) d := by
  unfold readOutput at member
  split at member
  · cases member
  · exact misnames_of_readVars unknown .prints braceless ‹_› member

theorem misnames_of_readBody (braceless : '}' ∉ text)
    (member : d ∈ (readBody rules place (caret rules.preprocess ++ text) text).problems) :
    Misnames rules place (caret rules.preprocess ++ text) d := by
  have covers := covers_unknown unknown place
    (Misnames rules place (caret rules.preprocess ++ text) d)
  refine covers.readBody rules (misnames_of_readOutput unknown braceless)
    (fun rest whole => ?_) member
  refine covers.readBind rules rest fun name word body left vars isWord same read member => ?_
  rw [whole, ← List.append_assoc, same]
  refine misnames_of_readVars unknown (.binds isWord) (fun inside => braceless ?_) read
    (same ▸ member)
  rw [whole, same]
  exact List.mem_append_right _ (List.mem_append_right _ inside)

theorem misnames_of_read {content : List Char} (braceless : '}' ∉ content)
    (member : d ∈ (read rules place content).problems) : Misnames rules place content d := by
  have body (lead : List Char) {text : List Char} (same : caret rules.preprocess = lead)
      (braceless : '}' ∉ text) (member : d ∈ (readBody rules place (lead ++ text) text).problems) :
      Misnames rules place (lead ++ text) d := by
    rw [← same] at member ⊢
    exact misnames_of_readBody unknown braceless member
  unfold read at member
  split at member
  · split at member
    · rename_i text preprocess
      exact body ['^'] (by rw [caret, if_pos preprocess])
        (List.not_mem_of_not_mem_cons braceless) member
    · cases member
  · split at member
    · cases member
    · rename_i off
      exact body [] (by rw [caret, if_neg off]) braceless member

end

end Tag

namespace Piece

theorem Follow.tag_mem {before : List Char} {pieces : List Piece} (h : Follow before pieces)
    {place mark : Position} {content : List Char}
    (member : Piece.tag place mark content ∈ pieces) :
    ∃ front after, before ++ pieces.flatMap Piece.source = front ++ (inBraces content ++ after) ∧
      place = .after .start front ∧ '{' ∉ content ∧ '}' ∉ content := by
  have later {before : List Char} {piece : Piece} {rest : List Piece}
      (found : ∃ front after, before ++ piece.source ++ rest.flatMap Piece.source =
        front ++ (inBraces content ++ after) ∧
          place = .after .start front ∧ '{' ∉ content ∧ '}' ∉ content) :
      ∃ front after, before ++ (piece :: rest).flatMap Piece.source =
        front ++ (inBraces content ++ after) ∧
          place = .after .start front ∧ '{' ∉ content ∧ '}' ∉ content := by
    rwa [List.flatMap_cons, ← List.append_assoc]
  induction h with
  | done => cases member
  | text _ _ _ ih =>
    rcases List.mem_cons.mp member with same | member
    · cases same
    · exact later (ih member)
  | comment _ ih =>
    rcases List.mem_cons.mp member with same | member
    · cases same
    · exact later (ih member)
  | openComment =>
    cases List.mem_singleton.mp member
  | @tag before content rest noLeft noRight _ ih =>
    rcases List.mem_cons.mp member with same | member
    · cases same
      exact ⟨before, rest.flatMap Piece.source, rfl, rfl, noLeft, noRight⟩
    · exact later (ih member)

end Piece

/-- Columns that are counted without a part in front lead to the pipe after them, or to the
character after the pipe, exactly if that part is empty and no line ends. -/
theorem pipe_iff (brace : Position) {lead : List Char} (line : '\n' ∉ lead) (front : List Char) :
    (brace.forward (front.length + 1) = brace.after ('{' :: (lead ++ front)) ∨
        brace.forward (front.length + 1) = (brace.after ('{' :: (lead ++ front))).next '|') ↔
      lead = [] ∧ '\n' ∉ front := by
  have next (p : Position) : p.next '|' = p.forward 1 := rfl
  rw [next]
  by_cases ends : '\n' ∈ front
  · -- The columns stay on the line of the brace, and the pipe is below it.
    have inside : '\n' ∈ '{' :: (lead ++ front) := by simp [ends]
    have below := Position.line_lt_after brace inside
    refine iff_of_false ?_ fun h => h.2 ends
    rintro (same | same) <;>
    · have line := congrArg Position.line same
      simp only [Position.forward] at line
      omega
  · rw [Position.after_eq_forward brace (by simp [line, ends]), ← List.length_eq_zero_iff]
    simp only [Position.forward, Position.mk.injEq, List.length_cons, List.length_append, true_and,
      ends, not_false_iff, and_true]
    omega

namespace Compiled

theorem ofFormatter_of_objection {s : Stack} {i : Instruction} {d : Diagnostic}
    (h : s.objection i = some d) : d.ofFormatter = false := by
  obtain ⟨fault, among, same⟩ := Stack.fault_of_objection h
  rw [Diagnostic.ofFormatter, same]
  simp only [List.mem_cons, List.not_mem_nil, or_false] at among
  rcases among with rfl | rfl | rfl | rfl | rfl <;> rfl

/-- A tag of a source has an unknown formatter, and a problem is that with the formatter. -/
structure Unknown (rules : Tag.Rules) (source before : List Char) (c : Tag.FormatterCut)
    (after : List Char) (d : Diagnostic) : Prop where
  whole : source = before ++ (inBraces c.content ++ after)
  noLeft : '{' ∉ c.content
  noRight : '}' ∉ c.content
  tag : c.Unknown rules
  problem : d = c.problem (Position.start.after before)

/-- A problem with an unknown formatter is as many columns after the brace of the tag as the name is
after the word of a tag that binds a variable. That is at the name or at the pipe before it exactly
where there is no such word, and no line end before the pipe. -/
theorem unknown_formatter_place {rules : Tag.Rules} {source : List Char} {d : Diagnostic}
    (reported : compile rules.vocabulary ⟨false, rules.preprocess, rules.expr⟩ source = .error d ∨
      ∃ c, compile rules.vocabulary ⟨true, rules.preprocess, rules.expr⟩ source = .ok c ∧
        d ∈ c.problems)
    (unknown : d.fault = .compile .formatterUnknown) :
    ∃ before c after, Unknown rules source before c after d ∧
      let pipe := Position.start.after (before ++ '{' :: (c.lead ++ c.front))
      (d.place = pipe ∨ d.place = pipe.next '|') ↔ c.lead = [] ∧ '\n' ∉ c.front := by
  have noted : ∃ c, compile rules.vocabulary ⟨true, rules.preprocess, rules.expr⟩ source = .ok c ∧
      d ∈ c.problems := reported.elim (fun failed => (compile_lenient_of_error failed).2) id
  obtain ⟨compiled, same, member⟩ := noted
  rcases noted_cases same member with ⟨s, i, objection⟩ | found
  · -- Objections are about blocks and never about formatters.
    have other := ofFormatter_of_objection objection
    rw [Tag.ofFormatter_of_unknown unknown] at other
    cases other
  rcases Event.problem_cases found with ⟨mark, rfl⟩ | ⟨place, mark, content, among, problem⟩
  · cases unknown
  obtain ⟨before, after, whole, rfl, noLeft, noRight⟩ :=
    (Piece.ofSource_follow source).tag_mem among
  rw [List.nil_append, Piece.ofSource_whole] at whole
  obtain ⟨c, rfl, tag, rfl⟩ := Tag.misnames_of_read unknown noRight problem
  refine ⟨before, c, after, ⟨whole, noLeft, noRight, tag, rfl⟩, ?_⟩
  intro pipe
  have there : pipe = (Position.start.after before).after ('{' :: (c.lead ++ c.front)) :=
    Position.after_append ..
  rw [there]
  exact pipe_iff _ tag.opens.line c.front

theorem unknown_formatter_place_pipe :
    let d := (Diagnostic.compile .formatterUnknown ⟨1, 3⟩).withName "nope"
    compile .empty .strict "\x7ba|nope\x7d".toList = .error d ∧
      ∃ before c after,
        Unknown ⟨.empty, .unlimited, false⟩ "\x7ba|nope\x7d".toList before c after d := by
  intro d
  have refused : compile .empty .strict "\x7ba|nope\x7d".toList = .error d := by
    with_unfolding_all rfl
  obtain ⟨before, c, after, placed, -⟩ :=
    @unknown_formatter_place ⟨.empty, .unlimited, false⟩ _ _ (.inl refused) rfl
  exact ⟨refused, before, c, after, placed⟩

/-- In a tag that binds a variable the place is four columns before the pipe, and in a tag over two
lines it is on the line of the brace. -/
theorem unknown_formatter_misplaced :
    compile .empty .strict "\x7b.var @x a|nope\x7d".toList =
        .error ((Diagnostic.compile .formatterUnknown ⟨1, 7⟩).withName "nope") ∧
      Position.start.after "\x7b.var @x a".toList = ⟨1, 11⟩ ∧
      compile .empty .strict "\x7ba,\nb|nope\x7d".toList =
        .error ((Diagnostic.compile .formatterUnknown ⟨1, 6⟩).withName "nope") ∧
      Position.start.after "\x7ba,\nb".toList = ⟨2, 2⟩ := by
  refine ⟨?_, by decide, ?_, by decide⟩ <;> with_unfolding_all rfl

end Compiled

end JsonTemplate

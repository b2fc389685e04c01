import JsonTemplate.Proofs.Assembly.Canonical
import JsonTemplate.Proofs.Plugin.Steady
import JsonTemplate.Proofs.Template.Modes
import JsonTemplate.Proofs.Template.Respell
import JsonTemplate.Proofs.Template.TagPlace

namespace JsonTemplate

open JsonTemplate.Text

namespace Tag

variable {rules : Rules} {place : Position} {content : List Char}

def respell (rules : Rules) (place : Position) (content : List Char) : List Char :=
  match (read rules place content).reading with
  | .instruction op => (op.source.drop 1).dropLast
  | _ => content

/-- A content that counts when nothing is preprocessed. -/
structure Plain (content : List Char) : Prop where
  isContent : Piece.IsContent content
  noCaret : content.head? ≠ some '^'

theorem read_plain (rules : Rules) (place : Position) (off : rules.preprocess = false)
    (plain : Plain content) : read rules place content = readBody rules place content content := by
  cases content with
  | nil => simp [read, off]
  | cons c rest =>
    have other : c ≠ '^' := by simpa using plain.noCaret
    rw [read]
    · simp [off]
    · intro body same
      exact other (List.cons.inj same).1

theorem read_cases (off : rules.preprocess = false) (plain : Plain content)
    (clean : (read rules place content).problems = []) :
    (∃ op, read rules place content = accept op) ∨
      ∃ reading, (reading = .plain ∨ reading = .asText) ∧
        ∀ other, read rules other content = ⟨[], reading⟩ := by
  have outline (other : Position) := read_outline rules place other content
  have shaped : (read rules place content).Shaped place content.length := by
    rw [read_plain rules place off plain]
    exact readBody_shaped rules (Nat.le_refl _) (Nat.le_refl _)
  generalize read rules place content = r at clean outline shaped
  cases shaped with
  | refused => cases clean
  | doubtful => cases clean
  | clean reading kept =>
    have again (other : Position) : read rules other content = ⟨[], reading⟩ := by
      have same := outline other
      generalize read rules other content = s at same
      obtain ⟨problems, reading⟩ := s
      simp only [TagReading.outline, List.length_nil, Prod.mk.injEq] at same
      rw [List.eq_nil_of_length_eq_zero same.1.symm, same.2]
    cases reading with
    | instruction op => exact .inl ⟨op, rfl⟩
    | dropped => exact absurd rfl kept
    | plain => exact .inr ⟨.plain, .inl rfl, again⟩
    | asText => exact .inr ⟨.asText, .inr rfl, again⟩

theorem respell_cases (steady : rules.vocabulary.Steady) (off : rules.preprocess = false)
    (plain : Plain content) (clean : (read rules place content).problems = []) :
    Plain (respell rules place content) ∧
      ((∃ op, read rules place content = accept op ∧
          op.source = inBraces (respell rules place content) ∧
          ∀ other, read rules other (respell rules place content) = accept op.canonical) ∨
        respell rules place content = content ∧
          ∃ reading, (reading = .plain ∨ reading = .asText) ∧
            ∀ other, read rules other content = ⟨[], reading⟩) := by
  rcases read_cases off plain clean with ⟨op, accepted⟩ | ⟨reading, kind, again⟩
  · have body := accepted
    rw [read_plain rules place off plain] at body
    obtain ⟨written, source, spells⟩ :=
      readBody_respelled steady plain.isContent plain.noCaret body
    have same : respell rules place content = written := by
      rw [respell, accepted]
      simp [accept, source, inBraces]
    have isPlain : Plain written := ⟨spells.isContent, spells.noCaret⟩
    rw [same]
    refine ⟨isPlain, .inl ⟨op, accepted, source, fun other => ?_⟩⟩
    rw [read_plain rules other off isPlain]
    exact spells.read other
  · have same : respell rules place content = content := by
      rw [respell, again]
      rcases kind with rfl | rfl <;> rfl
    rw [same]
    exact ⟨plain, .inr ⟨rfl, reading, kind, again⟩⟩

end Tag

namespace Event

variable {rules : Tag.Rules}

def Alike (source : List Char) (events others : List Event) : Prop :=
  ∃ i j, events = [emit i] ∧ others = [emit j] ∧ i.source = source ∧
    i.canonical = j.canonical ∧ i.op.isEof = false

theorem alike_emitText (place other : Position) (content : List Char) :
    Alike content [emitText place content] [emitText other content] :=
  ⟨_, _, rfl, rfl, String.toList_ofList, rfl, rfl⟩

theorem problems_ofReading (place mark : Position) (content : List Char) (r : TagReading) :
    problems (ofReading place mark content r) = r.problems := by
  obtain ⟨found, reading⟩ := r
  cases reading <;> simp [problems, ofReading, emitText, List.filterMap_map]

theorem alike_tag (steady : rules.vocabulary.Steady) (off : rules.preprocess = false)
    {place mark other mark' : Position} {content : List Char} (plain : Tag.Plain content)
    (clean : problems (ofPiece rules (.tag place mark content)) = []) :
    let written := Tag.respell rules place content
    Alike (inBraces written) (ofPiece rules (.tag place mark content))
      (ofPiece rules (.tag other mark' written)) := by
  rw [ofPiece, problems_ofReading] at clean
  obtain ⟨-, ⟨op, accepted, source, again⟩ | ⟨same, reading, kind, again⟩⟩ :=
    Tag.respell_cases steady off plain clean
  · intro written
    have going : op.isEof = false := by
      cases op with
      | eof => cases source
      | leaf | opening | repeated | alternates | or | macroStart | close => rfl
    have second : Tag.read rules other written = Tag.accept op.canonical := again other
    rw [ofPiece, ofPiece, accepted, second]
    refine ⟨_, _, rfl, rfl, source, ?_, going⟩
    simp only [Instruction.canonical, Op.canonical_canonical]
  · intro written
    have unchanged : written = content := same
    rw [unchanged, ofPiece, ofPiece, again, again]
    rcases kind with rfl | rfl
    · exact alike_emitText mark mark' _
    · exact alike_emitText place other _

theorem problems_ofPiece {pieces : List Piece}
    (clean : problems (pieces.flatMap (ofPiece rules)) = []) :
    ∀ piece ∈ pieces, problems (ofPiece rules piece) = [] := by
  intro piece member
  obtain ⟨front, back, rfl⟩ := List.append_of_mem member
  rw [List.flatMap_append, List.flatMap_cons, problems, List.filterMap_append,
    List.filterMap_append] at clean
  exact (List.append_eq_nil_iff.mp (List.append_eq_nil_iff.mp clean).2).1

theorem alike_piece (steady : rules.vocabulary.Steady) (off : rules.preprocess = false)
    {piece other : Piece}
    (plain : ∀ place mark content, piece = .tag place mark content → Tag.Plain content)
    (clean : problems (ofPiece rules piece) = [])
    (same : other.erase = (piece.retag (Tag.respell rules)).erase) :
    Alike (piece.retag (Tag.respell rules)).source (ofPiece rules piece) (ofPiece rules other) := by
  cases piece with
  | text place content =>
    cases other <;> cases same
    exact alike_emitText _ _ content
  | comment place content =>
    cases other <;> cases same
    refine ⟨_, _, rfl, rfl, ?_, rfl, rfl⟩
    simp [Instruction.source, Op.source, Leaf.source, Piece.retag, Piece.source, inBraces,
      Piece.commentStart, Piece.commentEnd]
  | openComment place mark content => cases clean
  | tag place mark content =>
    cases other <;> cases same
    exact alike_tag steady off (plain place mark content rfl) clean

theorem alike_pieces (steady : rules.vocabulary.Steady) (off : rules.preprocess = false)
    {pieces others : List Piece}
    (plain : ∀ place mark content, Piece.tag place mark content ∈ pieces → Tag.Plain content)
    (clean : problems (pieces.flatMap (ofPiece rules)) = [])
    (same : others.map Piece.erase =
      (pieces.map (Piece.retag (Tag.respell rules))).map Piece.erase) :
    ∃ items again : List Instruction, pieces.flatMap (ofPiece rules) = items.map emit ∧
      others.flatMap (ofPiece rules) = again.map emit ∧
      items.flatMap Instruction.source =
        (pieces.map (Piece.retag (Tag.respell rules))).flatMap Piece.source ∧
      items.map Instruction.canonical = again.map Instruction.canonical ∧
      ∀ i ∈ items, i.op.isEof = false := by
  induction pieces generalizing others with
  | nil =>
    rw [List.map_nil, List.map_nil, List.map_eq_nil_iff] at same
    subst same
    exact ⟨[], [], rfl, rfl, rfl, rfl, by simp⟩
  | cons piece pieces ih =>
    cases others with
    | nil => cases same
    | cons other others =>
      obtain ⟨first, rest⟩ := List.cons.inj same
      rw [List.flatMap_cons, problems, List.filterMap_append, List.append_eq_nil_iff] at clean
      obtain ⟨i, j, one, two, source, canonical, going⟩ := alike_piece steady off
        (fun place mark content found => plain place mark content (found ▸ List.mem_cons_self))
        clean.1 first
      obtain ⟨items, again, ones, twos, sources, canonicals, goings⟩ := ih
        (fun place mark content member => plain place mark content (List.mem_cons_of_mem _ member))
        clean.2 rest
      refine ⟨i :: items, j :: again, ?_, ?_, ?_, ?_, ?_⟩
      · rw [List.flatMap_cons, one, ones]
        rfl
      · rw [List.flatMap_cons, two, twos]
        rfl
      · rw [List.flatMap_cons, source, sources, List.map_cons, List.flatMap_cons]
      · rw [List.map_cons, canonical, canonicals, List.map_cons]
      · intro k member
        rcases List.mem_cons.mp member with rfl | member
        · exact going
        · exact goings k member

theorem plain_of_source {source content : List Char} {place mark : Position}
    (noCaret : ¬['{', '^'] <:+: source) (cut : Piece.Cut (Piece.ofSource source).1)
    (member : Piece.tag place mark content ∈ (Piece.ofSource source).1) : Tag.Plain content := by
  refine ⟨cut.isContent member, fun starts => noCaret ?_⟩
  obtain ⟨front, back, parts⟩ := List.append_of_mem member
  have whole := Piece.ofSource_whole source
  rw [parts, List.flatMap_append, List.flatMap_cons] at whole
  cases content with
  | nil => cases starts
  | cons c rest =>
    have caret : c = '^' := by simpa using starts
    subst caret
    refine ⟨front.flatMap Piece.source, rest ++ ['}'] ++ back.flatMap Piece.source, ?_⟩
    rw [← whole]
    simp [Piece.source, inBraces]

/-- The instructions of a source are read from what is written for them: a source without a problem
is read as instructions whose own source gives the same ones. -/
theorem ofSource_respelled (rules : Tag.Rules) (steady : rules.vocabulary.Steady)
    (off : rules.preprocess = false) {source : List Char} (noCaret : ¬['{', '^'] <:+: source)
    (clean : problems (ofSource rules source) = []) :
    ∃ (items others : List Instruction) (stop stop' : Position),
      ofSource rules source = (items ++ [Instruction.mk stop .eof]).map emit ∧
        ofSource rules (items.flatMap Instruction.source) =
          (others ++ [Instruction.mk stop' .eof]).map emit ∧
        items.map Instruction.canonical = others.map Instruction.canonical ∧
        ∀ i ∈ items, i.op.isEof = false := by
  let pieces := (Piece.ofSource source).1
  have clean : problems (pieces.flatMap (ofPiece rules)) = [] := by
    rw [ofSource, problems, List.filterMap_append] at clean
    exact (List.append_eq_nil_iff.mp clean).1
  have cleanPieces := problems_ofPiece clean
  have cut : Piece.Cut pieces := by
    refine Piece.ofSource_cut source fun place mark content member => ?_
    cases cleanPieces _ member
  have plain : ∀ place mark content, Piece.tag place mark content ∈ pieces → Tag.Plain content :=
    fun place mark content member => plain_of_source noCaret cut member
  let written := pieces.map (Piece.retag (Tag.respell rules))
  -- What is written for the pieces is a cut again, so a second scan finds the same pieces.
  have cutAgain : Piece.Cut written := by
    refine cut.retag fun place mark content member => ?_
    have tag := cleanPieces _ member
    rw [ofPiece, problems_ofReading] at tag
    exact (Tag.respell_cases steady off (plain place mark content member) tag).1.isContent
  obtain ⟨items, others, first, second, sources, canonicals, going⟩ :=
    alike_pieces steady off plain clean (cutAgain.scan_source .start .start)
  refine ⟨items, others, (Piece.ofSource source).2,
    (Piece.ofSource (written.flatMap Piece.source)).2, ?_, ?_, canonicals, going⟩
  · rw [List.map_append, ← first]
    rfl
  · rw [sources, List.map_append, ← second]
    rfl

theorem instructions_emits (items : List Instruction) :
    instructions (items.map emit) = items := by
  induction items with
  | nil => rfl
  | cons i rest ih => exact congrArg (i :: ·) ih

end Event

namespace Compiled

theorem feedStrict_clean {a s : Assembly} {events : List Event}
    (h : feedStrict a events = .ok s) :
    Event.problems events = [] ∧ a.feed (Event.instructions events) = (s, none) := by
  induction events generalizing a with
  | nil =>
    cases h
    exact ⟨rfl, rfl⟩
  | cons event rest ih =>
    cases event with
    | problem d => cases h
    | emit i =>
      rcases step : a.accept i with ⟨next, _ | d⟩
      · simp only [feedStrict, step] at h
        obtain ⟨none, fed⟩ := ih h
        refine ⟨none, ?_⟩
        have first : a.feed (Event.instructions (.emit i :: rest)) =
            next.feed (Event.instructions rest) := Assembly.feed_cons _ step
        rw [first, fed]
      · simp [feedStrict, step] at h

theorem ends_of_ok {vocabulary : Vocabulary} {expr : ExprOptions} {preprocess : Bool}
    {source : List Char} {compiled : Compiled}
    (found : compile vocabulary ⟨false, preprocess, expr⟩ source = .ok compiled)
    (place mark : Position) (content : List Char) :
    Piece.openComment place mark content ∉ (Piece.ofSource source).1 := by
  intro member
  obtain ⟨s, fed, -⟩ := Pattern.ok_of_map (f := fun a : Assembly => Compiled.mk a.finish [] a.count)
    (show _ = Except.ok compiled from found)
  have clean := (feedStrict_clean fed).1
  rw [Event.ofSource, Event.problems, List.filterMap_append] at clean
  cases Event.problems_ofPiece (List.append_eq_nil_iff.mp clean).1 _ member

theorem feedStrict_emits {a s : Assembly} {items : List Instruction}
    (h : a.feed items = (s, none)) : feedStrict a (items.map Event.emit) = .ok s := by
  induction items generalizing a with
  | nil =>
    cases h
    rfl
  | cons i rest ih =>
    rcases step : a.accept i with ⟨next, _ | d⟩
    · rw [Assembly.feed_cons rest step] at h
      simp only [List.map_cons, feedStrict, step]
      exact ih h
    · simp [Assembly.feed, step] at h

theorem keptIn_of_rejectedIn {verdicts : List Verdict} (h : Verdict.rejectedIn verdicts = []) :
    Verdict.keptIn verdicts = verdicts.map Verdict.instruction := by
  have none := List.filter_eq_nil_iff.mp (List.map_eq_nil_iff.mp h)
  have all : verdicts.filter Verdict.kept = verdicts := by
    refine List.filter_eq_self.mpr fun v member => ?_
    have allowed : v.allowed = true := by simpa [Verdict.rejected] using none v member
    rw [Verdict.kept, allowed, Bool.true_or]
  rw [Verdict.keptIn, all]

theorem upToEof_append {items : List Instruction} (stop : Position)
    (going : ∀ i ∈ items, i.op.isEof = false) :
    Instruction.upToEof (items ++ [⟨stop, .eof⟩]) = items ++ [⟨stop, .eof⟩] := by
  induction items with
  | nil => rfl
  | cons i rest ih =>
    have first := going i List.mem_cons_self
    have later := ih fun j member => going j (List.mem_cons_of_mem _ member)
    simp [Instruction.upToEof, first, later]

theorem feedStrict_linear {s : Assembly} {events : List Event}
    (h : feedStrict (Assembly.start false) events = .ok s) :
    s.finish.linear = Instruction.upToEof (Event.instructions events) := by
  obtain ⟨same, none⟩ := feedStrict_ok rfl rfl h
  obtain ⟨linear, new, problems, reports⟩ :=
    Assembly.feed_verdicts (Assembly.start true) (Event.instructions events) rfl rfl
      Stack.sound_empty
  have silent : new = [] := by
    have noted := (List.append_eq_nil_iff.mp none).1
    exact problems.symm.trans noted
  subst silent
  have kept := keptIn_of_rejectedIn (List.forall₂_nil_right_iff.mp reports)
  change s.relaxed.finish.linear = _
  rw [← same]
  refine linear.trans ?_
  rw [kept, Verdict.ofRun_instructions]
  rfl

/-- The template of a strict compilation has a source that is compiled to the same template, but for
places and for the delimiters of arguments without a value. -/
theorem compile_source {vocabulary : Vocabulary} (steady : vocabulary.Steady) (expr : ExprOptions)
    {source : List Char} {c : Compiled} (noCaret : ¬['{', '^'] <:+: source)
    (compiled : compile vocabulary ⟨false, false, expr⟩ source = .ok c) :
    ∃ again, compile vocabulary ⟨false, false, expr⟩ c.template.source = .ok again ∧
      again.template.canonical = c.template.canonical ∧ again.count = c.count := by
  obtain ⟨s, fed, rfl⟩ := Pattern.ok_of_map (f := fun a : Assembly => Compiled.mk a.finish [] a.count)
    (show _ = Except.ok c from compiled)
  obtain ⟨clean, run⟩ := feedStrict_clean fed
  obtain ⟨items, others, stop, stop', read, readAgain, canonicals, going⟩ :=
    Event.ofSource_respelled ⟨vocabulary, expr, false⟩ steady rfl noCaret clean
  rw [read, Event.instructions_emits] at run
  -- The tree lists the instructions that were read, so its source is what is written for them.
  have written : s.finish.source = items.flatMap Instruction.source := by
    rw [← Template.linear_source, feedStrict_linear fed, read, Event.instructions_emits,
      upToEof_append stop going]
    simp [Instruction.source, Op.source]
  have alike : (items ++ [Instruction.mk stop .eof]).map Instruction.canonical =
      (others ++ [Instruction.mk stop' .eof]).map Instruction.canonical := by
    rw [List.map_append, canonicals, List.map_append]
    rfl
  obtain ⟨after, runAgain, same⟩ := Assembly.alike_start.feed alike rfl run
  refine ⟨⟨after.finish, [], after.count⟩, ?_, ?_, ?_⟩
  · have fedAgain := feedStrict_emits runAgain
    rw [← readAgain, ← written] at fedAgain
    exact congrArg (Except.map _) fedAgain
  · change after.finish.canonical = s.finish.canonical
    rw [Assembly.finish_canonical, Assembly.finish_canonical, same]
  · have counts := congrArg Assembly.count same
    exact counts.symm

theorem ok_of_toOption {ε α : Type} {x : Except ε α} {a : α} (h : x.toOption = some a) :
    x = .ok a := by
  cases x with
  | error => cases h
  | ok b =>
    cases h
    rfl

/-- The source of a template is a normal form: it is compiled to the same template, but for places
and for the delimiters of arguments without a value, and the source of that template is the same
again. -/
theorem compile_source_normal (expr : ExprOptions) (source : List Char) (c : Compiled)
    (noCaret : ¬['{', '^'] <:+: source)
    (compiled : compile Catalog.core.vocabulary ⟨false, false, expr⟩ source = .ok c) :
    ∃ again, compile Catalog.core.vocabulary ⟨false, false, expr⟩ c.template.source = .ok again ∧
      again.template.canonical = c.template.canonical ∧
      again.template.source = c.template.source := by
  obtain ⟨again, recompiled, same, -⟩ := compile_source Catalog.core_steady expr noCaret compiled
  refine ⟨again, recompiled, same, ?_⟩
  rw [← Template.canonical_source, same, Template.canonical_source]

theorem compile_source_normal_cycle :
    ¬['{', '^'] <:+:
        "\x7b.section  s\x7d\x7bx , y|cycle  u v|str:\x7d\x7b.or\x7d\x7d\x7b.end\x7d".toList ∧
      ∃ c again, compile Catalog.core.vocabulary ⟨false, false, .unlimited⟩
          "\x7b.section  s\x7d\x7bx , y|cycle  u v|str:\x7d\x7b.or\x7d\x7d\x7b.end\x7d".toList =
            .ok c ∧
        c.template.source =
          "\x7b.section s\x7d\x7bx,y|cycle u v|str\x7d\x7b.or\x7d\x7d\x7b.end\x7d".toList ∧
        compile Catalog.core.vocabulary ⟨false, false, .unlimited⟩ c.template.source = .ok again ∧
        again.template.canonical = c.template.canonical ∧
        again.template.source = c.template.source := by
  have noCaret : ¬['{', '^'] <:+:
      "\x7b.section  s\x7d\x7bx , y|cycle  u v|str:\x7d\x7b.or\x7d\x7d\x7b.end\x7d".toList := by
    decide +kernel
  have written : (compile Catalog.core.vocabulary ⟨false, false, .unlimited⟩
      "\x7b.section  s\x7d\x7bx , y|cycle  u v|str:\x7d\x7b.or\x7d\x7d\x7b.end\x7d".toList
        ).toOption.map (fun c => c.template.source) =
      some "\x7b.section s\x7d\x7bx,y|cycle u v|str\x7d\x7b.or\x7d\x7d\x7b.end\x7d".toList := by
    decide +kernel
  obtain ⟨c, found, same⟩ := Option.map_eq_some_iff.mp written
  have compiled := ok_of_toOption found
  obtain ⟨again, recompiled, tree, stays⟩ := compile_source_normal .unlimited _ c noCaret compiled
  exact ⟨noCaret, c, again, compiled, same, recompiled, tree, stays⟩

end Compiled

end JsonTemplate

import JsonTemplate.Proofs.Assembly.Onto
import JsonTemplate.Proofs.Template.Coverage
import JsonTemplate.Proofs.Template.RoundTrip
import JsonTemplate.Proofs.Template.Unplaced

namespace JsonTemplate

open JsonTemplate.Text JsonTemplate.Pattern

/-- What is written for a macro that has the code of a source. -/
def macroOf (name source : String) : String :=
  "\x7b.macro " ++ name ++ "\x7d" ++ source ++ "\x7b.end\x7d"

theorem macroOf_toList (name source : String) : (macroOf name source).toList =
    macroSource name ++ source.toList ++ inBraces ".end".toList := by
  simp [macroOf, macroSource, inBraces]

namespace Piece

theorem isText_nil : IsText [] := ⟨List.not_mem_nil, .nil⟩

theorem Cut.append_tag {pieces rest : List Piece} {content : List Char} (place same : Position)
    (h : Cut pieces) (isContent : IsContent content) (cut : Cut rest) :
    Cut (pieces ++ Piece.tag place same content :: rest) := by
  induction h with
  | done mark isText => exact .tag mark place same isText isContent cut
  | tag mark place' same' isText isContent' _ ih =>
    rw [List.append_assoc]
    exact .tag mark place' same' isText isContent' ih
  | comment mark place' isText ends _ ih =>
    rw [List.append_assoc]
    exact .comment mark place' isText ends ih
  | stray mark noLeft noRight _ ih => exact .stray mark noLeft noRight ih

end Piece

namespace Event

variable {rules : Tag.Rules}

def Does (rules : Tag.Rules) (pieces : List Piece) (ops : List Op) : Prop :=
  (∀ op ∈ ops, op.isEof = false) ∧
    ∀ others : List Piece, others.map Piece.erase = pieces.map Piece.erase →
      ∃ items, others.flatMap (ofPiece rules) = items.map emit ∧ Tree.ops items = ops

theorem Does.append {front back : List Piece} {first second : List Op} (h : Does rules front first)
    (h' : Does rules back second) : Does rules (front ++ back) (first ++ second) := by
  refine ⟨fun op member => (List.mem_append.mp member).elim (h.1 op) (h'.1 op), ?_⟩
  intro others same
  rw [List.map_append] at same
  obtain ⟨left, right, rfl, one, two⟩ := List.map_eq_append_iff.mp same
  obtain ⟨items, given, does⟩ := h.2 left one
  obtain ⟨more, given', does'⟩ := h'.2 right two
  refine ⟨items ++ more, ?_, ?_⟩
  · rw [List.flatMap_append, given, given', List.map_append]
  · rw [Tree.ops_append, does, does']

theorem does_single {piece : Piece} {ops : List Op} (going : ∀ op ∈ ops, op.isEof = false)
    (each : ∀ other : Piece, other.erase = piece.erase →
      ∃ items, ofPiece rules other = items.map emit ∧ Tree.ops items = ops) :
    Does rules [piece] ops := by
  refine ⟨going, fun others same => ?_⟩
  rw [List.map_singleton, List.map_eq_singleton_iff] at same
  obtain ⟨other, rfl, erased⟩ := same
  simpa using each other erased

theorem does_tag {content : List Char} {op : Op} (place mark : Position)
    (read : ∀ place, Tag.read rules place content = Tag.accept op) (going : op.isEof = false) :
    Does rules [.tag place mark content] [op] := by
  refine does_single (by simpa using going) fun other same => ?_
  cases other with
  | tag place' mark' content' =>
    cases same
    exact ⟨[⟨place', op⟩], by simp [ofPiece, read, ofReading, Tag.accept], rfl⟩
  | text | comment | openComment => cases same

theorem read_clean {place : Position} {content : List Char}
    (clean : (Tag.read rules place content).problems = []) :
    ∃ reading, (∀ op, reading = .instruction op → op.inTag) ∧
      ∀ other, Tag.read rules other content = ⟨[], reading⟩ := by
  refine ⟨(Tag.read rules place content).reading, fun op => inTag_of_read rules, fun other => ?_⟩
  have same := Tag.read_outline rules place other content
  generalize Tag.read rules place content = r at clean same ⊢
  generalize Tag.read rules other content = s at same ⊢
  obtain ⟨problems, reading⟩ := s
  simp only [TagReading.outline, clean, List.length_nil, Prod.mk.injEq] at same
  rw [List.eq_nil_of_length_eq_zero same.1.symm, same.2]

theorem does_piece {piece : Piece} (clean : problems (ofPiece rules piece) = []) :
    ∃ ops, Does rules [piece] ops := by
  cases piece with
  | text place content =>
    refine ⟨[.leaf (.text (String.ofList content))], does_single (by simp [Op.isEof]) ?_⟩
    rintro (⟨place', content'⟩ | _ | _ | _) same <;> cases same
    exact ⟨[_], rfl, rfl⟩
  | comment place content =>
    refine ⟨[.leaf (.comment (String.ofList content) true)], does_single (by simp [Op.isEof]) ?_⟩
    rintro (_ | _ | ⟨place', content'⟩ | _) same <;> cases same
    exact ⟨[_], rfl, rfl⟩
  | openComment place mark content => cases clean
  | tag place mark content =>
    rw [ofPiece, problems_ofReading] at clean
    obtain ⟨reading, inTag, again⟩ := read_clean clean
    cases reading with
    | instruction op =>
      have inTag := inTag op rfl
      have going : op.isEof = false := by cases op <;> first | rfl | cases inTag
      exact ⟨[op], does_tag place mark again going⟩
    | dropped =>
      refine ⟨[], does_single (by simp) ?_⟩
      rintro (_ | ⟨place', mark', content'⟩ | _ | _) same <;> cases same
      exact ⟨[], by simp [ofPiece, again, ofReading], rfl⟩
    | plain | asText =>
      refine ⟨[.leaf (.text (String.ofList (inBraces content)))],
        does_single (by simp [Op.isEof]) ?_⟩
      rintro (_ | ⟨place', mark', content'⟩ | _ | _) same <;> cases same
      rw [ofPiece, again]
      exact ⟨[_], rfl, rfl⟩

theorem does_pieces {pieces : List Piece}
    (clean : problems (pieces.flatMap (ofPiece rules)) = []) : ∃ ops, Does rules pieces ops := by
  have each := problems_ofPiece clean
  clear clean
  induction pieces with
  | nil =>
    refine ⟨[], by simp, fun others same => ⟨[], ?_, rfl⟩⟩
    rw [List.map_eq_nil_iff.mp same]
    rfl
  | cons piece rest ih =>
    obtain ⟨first, one⟩ := does_piece (each piece List.mem_cons_self)
    obtain ⟨later, others⟩ := ih fun other member => each other (List.mem_cons_of_mem _ member)
    exact ⟨first ++ later, one.append others⟩

theorem Does.going {pieces : List Piece} {items : List Instruction}
    (h : Does rules pieces (Tree.ops items)) : ∀ i ∈ items, i.op.isEof = false :=
  fun i member => h.1 i.op (List.mem_map_of_mem member)

theorem Does.ofSource {source : List Char} {pieces : List Piece} {ops : List Op}
    (h : Does rules pieces ops)
    (same : (Piece.ofSource source).1.map Piece.erase = pieces.map Piece.erase) :
    ∃ items stop, Event.ofSource rules source = (items ++ [Instruction.mk stop .eof]).map emit ∧
      Tree.ops items = ops := by
  obtain ⟨items, given, does⟩ := h.2 _ same
  refine ⟨items, (Piece.ofSource source).2, ?_, does⟩
  rw [List.map_append, ← given]
  rfl

end Event

namespace Tag

variable {rules : Rules}

theorem Respelled.read {op : Op} (off : rules.preprocess = false) (h : Respelled rules op)
    (same : op.canonical = op) :
    ∃ content, op.source = inBraces content ∧ Piece.IsContent content ∧
      ∀ place, read rules place content = accept op := by
  obtain ⟨content, written, spells⟩ := h
  refine ⟨content, written, spells.isContent, fun place => ?_⟩
  rw [read_plain rules place off ⟨spells.isContent, spells.noCaret⟩, spells.read, same]

end Tag

theorem Tree.canonical_of_ops {items others : List Instruction}
    (same : Tree.ops items = Tree.ops others) :
    items.map Instruction.canonical = others.map Instruction.canonical := by
  have through (items : List Instruction) : items.map Instruction.canonical =
      (Tree.ops items).map fun op => ⟨.nowhere, op.canonical⟩ := by
    simp [Tree.ops, Instruction.canonical]
  rw [through, through, same]

namespace Compiled

variable {vocabulary : Vocabulary} {expr : ExprOptions} {source : List Char}

theorem compile_ok {c : Compiled} (h : compile vocabulary ⟨false, false, expr⟩ source = .ok c) :
    ∃ items stop a, Piece.Cut (Piece.ofSource source).1 ∧
      Event.Does ⟨vocabulary, expr, false⟩ (Piece.ofSource source).1 (Tree.ops items) ∧
        (Assembly.start false).feed (items ++ [⟨stop, .eof⟩]) = (a, none) ∧
          a.finish = c.template := by
  obtain ⟨a, fed, rfl⟩ := Pattern.ok_of_map (f := fun a : Assembly => Compiled.mk a.finish [] a.count)
    (show _ = Except.ok c from h)
  obtain ⟨clean, run⟩ := feedStrict_clean fed
  rw [Event.ofSource, Event.problems, List.filterMap_append] at clean
  obtain ⟨ops, does⟩ := Event.does_pieces (List.append_eq_nil_iff.mp clean).1
  obtain ⟨items, stop, read, rfl⟩ := does.ofSource rfl
  rw [read, Event.instructions_emits] at run
  exact ⟨items, stop, a, Piece.ofSource_cut source (ends_of_ok h), does, run, rfl⟩

theorem linear_of_feed {items : List Instruction} {stop : Position} {a : Assembly}
    (going : ∀ i ∈ items, i.op.isEof = false)
    (fed : (Assembly.start false).feed (items ++ [⟨stop, .eof⟩]) = (a, none)) :
    a.finish.linear = items ++ [⟨stop, .eof⟩] := by
  rw [feedStrict_linear (feedStrict_emits fed), Event.instructions_emits, upToEof_append stop going]

theorem compile_of_does {items : List Instruction} {stop : Position} {a : Assembly}
    (fed : (Assembly.start false).feed (items ++ [⟨stop, .eof⟩]) = (a, none))
    {pieces : List Piece} (does : Event.Does ⟨vocabulary, expr, false⟩ pieces (Tree.ops items))
    (same : (Piece.ofSource source).1.map Piece.erase = pieces.map Piece.erase) :
    ∃ c, compile vocabulary ⟨false, false, expr⟩ source = .ok c ∧
      Tree.unplacedAll c.template.body = Tree.unplacedAll a.finish.body := by
  obtain ⟨others, stop', read, equal⟩ := does.ofSource same
  have going := does.going
  rw [← equal] at does
  have equal : Tree.ops (items ++ [⟨stop, .eof⟩]) = Tree.ops (others ++ [⟨stop', .eof⟩]) := by
    rw [Tree.ops_append, Tree.ops_append, equal]
    rfl
  obtain ⟨b, fed', canonical⟩ := Assembly.alike_start.feed (Tree.canonical_of_ops equal) rfl fed
  refine ⟨⟨b.finish, [], b.count⟩, ?_, ?_⟩
  · have run := feedStrict_emits fed'
    rw [← read] at run
    exact congrArg (Except.map _) run
  · refine (Template.unplaced_of_ops ?_ ?_).symm
    · rw [Assembly.finish_canonical, Assembly.finish_canonical, canonical]
    · rw [linear_of_feed going fed, linear_of_feed does.going fed', equal]

theorem compile_macroOf {name source rest : String} (isPath : IsRun isPathChar name.toList)
    {c r : Compiled} (compiled : compile vocabulary ⟨false, false, expr⟩ source.toList = .ok c)
    (further : compile vocabulary ⟨false, false, expr⟩ rest.toList = .ok r) :
    ∃ w, compile vocabulary ⟨false, false, expr⟩ (macroOf name source ++ rest).toList = .ok w ∧
      Tree.unplacedAll w.template.body =
        Tree.unplacedAll (.macroDef .nowhere name c.template.body (some .nowhere) ::
          r.template.body) := by
  let rules : Tag.Rules := ⟨vocabulary, expr, false⟩
  obtain ⟨inner, _, a, cut, does, fed, body⟩ := compile_ok compiled
  obtain ⟨after, _, b, cut', does', fed', body'⟩ := compile_ok further
  have named : Tag.Follows rules .macroStart _ _ := Tag.follows_macroName isPath
  rw [String.ofList_toList] at named
  obtain ⟨opening, opens, isContent, openRead⟩ := named.respelled.read rfl rfl
  have close : Tag.Follows rules .close .close [] := ⟨rfl, .nil, .nil, fun place => rfl⟩
  obtain ⟨closing, closes, isContent', closeRead⟩ := close.respelled.read rfl rfl
  -- The whole is cut where its parts are, since a tag ends what is cut before it.
  let openTag := Piece.tag .nowhere .nowhere opening
  let closeTag := Piece.tag .nowhere .nowhere closing
  let pieces := [openTag] ++
    ((Piece.ofSource source.toList).1 ++ ([closeTag] ++ (Piece.ofSource rest.toList).1))
  have same : (Piece.ofSource (macroOf name source ++ rest).toList).1.map Piece.erase =
      pieces.map Piece.erase := by
    have whole : Piece.Cut pieces := .tag .nowhere .nowhere .nowhere Piece.isText_nil isContent
      (cut.append_tag _ _ isContent' cut')
    have opens : macroSource name = inBraces opening := opens
    have closes : inBraces ".end".toList = inBraces closing := closes
    have written : pieces.flatMap Piece.source = (macroOf name source ++ rest).toList := by
      rw [String.toList_append, macroOf_toList, opens, closes]
      simp [pieces, openTag, closeTag, Piece.source, Piece.ofSource_whole]
    rw [← written]
    exact whole.scan_source .start .start
  let items : List Instruction :=
    [⟨.nowhere, .macroStart name⟩] ++ (inner ++ ([⟨.nowhere, .close⟩] ++ after))
  have allDoes : Event.Does rules pieces (Tree.ops items) := by
    have all := (Event.does_tag .nowhere .nowhere openRead rfl).append
      (does.append ((Event.does_tag .nowhere .nowhere closeRead rfl).append does'))
    simpa [items, pieces, openTag, closeTag] using all
  obtain ⟨s, taken, shape⟩ :=
    Assembly.feed_macro .nowhere .nowhere .nowhere name does.going does'.going fed fed'
  have taken : (Assembly.start false).feed (items ++ [⟨.nowhere, .eof⟩]) = (s, none) := by
    simpa [items] using taken
  obtain ⟨w, ok, equal⟩ := compile_of_does taken allDoes same
  exact ⟨w, ok, by rw [equal, shape, body, body']⟩

theorem compile_macroOf_alone {name source : String} (isPath : IsRun isPathChar name.toList)
    {c : Compiled} (compiled : compile vocabulary ⟨false, false, expr⟩ source.toList = .ok c) :
    ∃ w place body close,
      compile vocabulary ⟨false, false, expr⟩ (macroOf name source).toList = .ok w ∧
        w.template.body = [.macroDef place name body (some close)] ∧
          Tree.unplacedAll body = Tree.unplacedAll c.template.body := by
  -- The macro followed by nothing.
  have empty : compile vocabulary ⟨false, false, expr⟩ "".toList = .ok ⟨⟨[], some .start⟩, [], 1⟩ :=
    rfl
  obtain ⟨w, ok, same⟩ := compile_macroOf isPath compiled empty
  rw [String.append_empty] at ok
  obtain ⟨t, others, trees, one, none⟩ := Tree.exists_of_unplacedAll same
  obtain ⟨place, body, close, rfl, equal⟩ := Tree.exists_of_unplaced_macroDef one
  cases others with
  | nil => exact ⟨w, place, body, close, ok, trees, equal⟩
  | cons => cases none

end Compiled

end JsonTemplate

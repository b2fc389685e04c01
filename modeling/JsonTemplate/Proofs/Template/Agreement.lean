import JsonTemplate.Proofs.Template.ReportCounts

namespace JsonTemplate

open JsonTemplate.Text JsonTemplate.Pattern

def TagReading.Agreed (r : TagReading) : Prop :=
  r.problems = [] → ∀ op, r.reading = .instruction op → op.Agreed

namespace Tag

variable {place : Position} {rules : Rules}

theorem covers_agreed : Covers place TagReading.Agreed where
  accept _ agreed _ op same := by
    cases same
    exact agreed
  refuse _ _ _ := nofun
  doubt _ _ _ _ := nofun

theorem withFormatters_agreed (anchor text : List Char) {make : List Call → Op}
    (none : ∀ calls, (make calls).predicates = []) :
    (withFormatters rules place anchor text make).Agreed := by
  unfold withFormatters
  split
  · rename_i failed
    obtain ⟨d, -, -, -, -, rfl⟩ := readFormatters_error failed
    exact nofun
  · intro _ op same
    cases same
    exact Op.agreed_of_predicates (none _)
  · exact fun _ _ => nofun

theorem readOutput_agreed (anchor text : List Char) :
    (readOutput rules place anchor text).Agreed := by
  unfold readOutput
  split
  · exact fun _ _ => nofun
  · exact withFormatters_agreed _ _ fun _ => rfl

theorem readBody_agreed (anchor text : List Char) :
    (readBody rules place anchor text).Agreed :=
  covers_agreed.readBody rules (readOutput_agreed _ _) fun rest _ =>
    covers_agreed.readBind rules rest fun _ _ _ _ _ _ _ _ =>
      withFormatters_agreed _ _ fun _ => rfl

theorem read_agreed (content : List Char) : (read rules place content).Agreed := by
  unfold read
  split
  · split
    · exact readBody_agreed _ _
    · exact fun _ _ => nofun
  · split
    · exact fun _ _ => nofun
    · exact readBody_agreed _ _

end Tag

namespace Event

variable {rules : Tag.Rules}

theorem ofPiece_agreed {piece : Piece} (clean : problems (ofPiece rules piece) = []) :
    ∀ i ∈ instructions (ofPiece rules piece), i.op.Agreed := by
  have plain (place : Position) (l : Leaf) : (Instruction.mk place (.leaf l)).op.Agreed :=
    Op.agreed_of_predicates rfl
  cases piece with
  | text | comment =>
    intro i member
    cases List.mem_singleton.mp member
    exact plain _ _
  | openComment => cases clean
  | tag place mark content =>
    rw [ofPiece, problems_ofReading] at clean
    have agreed := Tag.read_agreed content clean
    intro i member
    rw [ofPiece, ofReading_instructions] at member
    cases reading : (Tag.read rules place content).reading with
    | instruction op =>
      rw [reading, List.mem_singleton] at member
      rw [member]
      exact agreed op reading
    | dropped =>
      rw [reading] at member
      cases member
    | plain | asText =>
      rw [reading, List.mem_singleton] at member
      rw [member]
      exact plain _ _

theorem ofSource_agreed {source : List Char} (clean : problems (ofSource rules source) = []) :
    ∀ i ∈ instructions (ofSource rules source), i.op.Agreed := by
  rw [ofSource, problems, List.filterMap_append] at clean
  have each := problems_ofPiece (List.append_eq_nil_iff.mp clean).1
  intro i member
  rw [ofSource, instructions_append] at member
  rcases List.mem_append.mp member with inside | last
  · obtain ⟨event, among, found⟩ := List.mem_filterMap.mp inside
    obtain ⟨piece, given, came⟩ := List.mem_flatMap.mp among
    exact ofPiece_agreed (each piece given) i (List.mem_filterMap.mpr ⟨event, came, found⟩)
  · cases List.mem_singleton.mp last
    exact Op.agreed_of_predicates rfl

end Event

namespace Compiled

variable {vocabulary : Vocabulary} {preprocess : Bool} {expr : ExprOptions} {source : List Char}
  {c : Compiled}

theorem compile_clean (h : compile vocabulary ⟨false, preprocess, expr⟩ source = .ok c) :
    Event.problems (Event.ofSource ⟨vocabulary, expr, preprocess⟩ source) = [] := by
  obtain ⟨a, fed, -⟩ := Pattern.ok_of_map (f := fun a : Assembly => Compiled.mk a.finish [] a.count)
    (show _ = Except.ok c from h)
  exact (feedStrict_clean fed).1

theorem compile_agreed (h : compile vocabulary ⟨false, preprocess, expr⟩ source = .ok c) :
    ∀ i ∈ c.template.scanned, i.op.Agreed := by
  intro i member
  obtain ⟨-, linear, -, -⟩ := compile_formed h
  rw [c.template.scanned_perm.mem_iff, linear] at member
  rcases List.mem_append.mp member with read | implied
  · exact Event.ofSource_agreed (compile_clean h) i read
  · obtain ⟨place, -, rfl⟩ := List.mem_map.mp implied
    exact Op.agreed_of_predicates rfl

end Compiled

end JsonTemplate

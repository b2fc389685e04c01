import JsonTemplate.Proofs.Template.Cut
import JsonTemplate.Proofs.Template.TagProblem
import JsonTemplate.Proofs.Text.Division
import JsonTemplate.Template.Event
import Mathlib.Data.List.DropRight

namespace JsonTemplate

open JsonTemplate.Text

namespace Piece

/-- A text up to its last right brace. -/
def closed (text : List Char) : List Char := text.rdropWhile (· ≠ '}')

theorem closed_append {text more : List Char} (h : '}' ∉ more) :
    closed (text ++ more) = closed text := by
  induction more using List.reverseRecOn with
  | nil => rw [List.append_nil]
  | append_singleton more c ih =>
    rw [List.mem_append, List.mem_singleton, not_or] at h
    rw [← List.append_assoc, closed, List.rdropWhile_concat_pos _ _ _ (by simpa using Ne.symm h.2)]
    exact ih h.1

theorem closed_brace (text : List Char) : closed (text ++ ['}']) = text ++ ['}'] :=
  List.rdropWhile_concat_neg _ _ _ (by simp)

/-- The pieces of a source after the text before them. Only the last one can be a comment without an
end. -/
inductive Follow : List Char → List Piece → Prop where
  | done (before : List Char) : Follow before []
  | text {before content : List Char} {rest : List Piece} :
      content ≠ [] → closed before = before → Follow (before ++ content) rest →
        Follow before (Piece.text (.after .start before) content :: rest)
  | tag {before content : List Char} {rest : List Piece} :
      '{' ∉ content → '}' ∉ content → Follow (before ++ inBraces content) rest →
        Follow before
          (Piece.tag (.after .start before) (.after .start (closed before)) content :: rest)
  | comment {before content : List Char} {rest : List Piece} :
      Follow (before ++ (commentStart ++ content ++ commentEnd)) rest →
        Follow before (Piece.comment (.after .start before) content :: rest)
  | openComment (before : List Char) (mark : Position) (content : List Char) :
      Follow before [Piece.openComment (.after .start before) mark content]

def Marks (before : List Char) (mark : Position) : Prop :=
  closed before = before ∧ mark = .after .start before

theorem Follow.textPiece {before content : List Char} {mark : Position} {rest : List Piece}
    (marks : Marks before mark) (h : Follow (before ++ content) rest) :
    Follow before (textPiece mark content ++ rest) := by
  cases content with
  | nil => rwa [List.append_nil] at h
  | cons c more => exact marks.2 ▸ .text (List.cons_ne_nil c more) marks.1 h

def Mode.Leads (before : List Char) (here : Position) : Mode → Prop
  | .outside ⟨run, none⟩ => Position.start.after (before ++ run.reverse) = here ∧ '}' ∉ run
  | .outside ⟨run, some (place, content)⟩ =>
    Position.start.after (before ++ run.reverse) = place ∧ '}' ∉ run ∧
      place.after ('{' :: content.reverse) = here ∧ '{' ∉ content ∧ '}' ∉ content
  | .inside place content =>
    Position.start.after before = place ∧ place.after (commentStart ++ content.reverse) = here

section

variable {before : List Char} {here : Position} {p : Pending}

theorem Mode.Leads.all (h : (Mode.outside p).Leads before here) :
    Position.start.after (before ++ p.all) = here ∧ '}' ∉ p.backward := by
  match p, h with
  | ⟨run, none⟩, h => exact h
  | ⟨run, some (place, content)⟩, ⟨first, noRight, second, _, free⟩ =>
    have parts : Pending.all ⟨run, some (place, content)⟩ =
        run.reverse ++ '{' :: content.reverse := by simp [Pending.all, Pending.backward]
    refine ⟨?_, by simp [Pending.backward, noRight, free]⟩
    rw [parts, ← List.append_assoc, Position.after_append, first, second]

theorem Mode.Leads.push {c : Char} (left : c ≠ '{') (right : c ≠ '}')
    (h : (Mode.outside p).Leads before here) :
    (Mode.outside (p.push c)).Leads before (here.next c) := by
  match p, h with
  | ⟨run, none⟩, ⟨first, noRight⟩ =>
    refine ⟨?_, by simp [noRight, Ne.symm right]⟩
    rw [List.reverse_cons, ← List.append_assoc, Position.after_append, first]
    rfl
  | ⟨run, some (place, content)⟩, ⟨first, free, second, noLeft, noRight⟩ =>
    refine ⟨first, free, ?_, by simp [noLeft, Ne.symm left], by simp [noRight, Ne.symm right]⟩
    rw [List.reverse_cons, ← List.cons_append, Position.after_append, second]
    rfl

theorem Mode.Leads.reopen (h : (Mode.outside p).Leads before here) :
    (Mode.outside (p.reopen here)).Leads before (here.next '{') :=
  ⟨h.all.1, h.all.2, rfl, List.not_mem_nil, List.not_mem_nil⟩

theorem Mode.Leads.pieces {mark : Position} {rest : List Piece}
    (h : (Mode.outside p).Leads before here) (marks : Marks before mark)
    (further : Marks (before ++ (p.all ++ ['}'])) (here.next '}') →
      Follow (before ++ (p.all ++ ['}'])) rest) :
    Follow before (p.pieces mark ++ rest) := by
  have next : Marks (before ++ (p.all ++ ['}'])) (here.next '}') := by
    rw [← List.append_assoc]
    refine ⟨closed_brace _, ?_⟩
    rw [Position.after_append, h.all.1]
    rfl
  have after := further next
  match p, h with
  | ⟨run, none⟩, _ => exact marks.2 ▸ .text (by simp) marks.1 after
  | ⟨run, some (place, content)⟩, ⟨first, free, second, noLeft, noRight⟩ =>
    rw [Pending.pieces, List.append_assoc]
    refine Follow.textPiece marks ?_
    have mark_eq : mark = .after .start (closed (before ++ run.reverse)) := by
      rw [closed_append (by simpa using free), marks.1, marks.2]
    rw [← first, mark_eq]
    refine .tag (by simpa using noLeft) (by simpa using noRight) ?_
    have parts : before ++ (Pending.all ⟨run, some (place, content)⟩ ++ ['}']) =
        before ++ run.reverse ++ inBraces content.reverse := by
      simp [Pending.all, Pending.backward, inBraces]
    rwa [parts] at after

end

theorem scan_follow (mark here : Position) (mode : Mode) (rest before : List Char)
    (h : mode.Leads before here) (outside : ∀ p, mode = .outside p → Marks before mark) :
    Follow before (scan mark here mode rest).1 := by
  -- Along the cases of the scan; `Leads` is what each of them keeps.
  fun_induction scan mark here mode rest generalizing before with
  | case1 mark here p =>
    rw [← List.append_nil (textPiece mark p.all)]
    exact Follow.textPiece (outside p rfl) (.done _)
  | case2 mark here place content =>
    cases h.1
    exact .openComment before mark _
  | case3 mark here p rest pieces stop scanned ih =>
    rw [scanned] at ih
    exact Follow.textPiece (outside p rfl) (ih _ ⟨h.all.1, rfl⟩ fun _ same => by cases same)
  | case4 mark here place content rest after pieces stop scanned ih =>
    rw [scanned] at ih
    obtain ⟨rfl, leads⟩ := h
    have ends : Position.start.after (before ++ (commentStart ++ content.reverse ++ commentEnd)) =
        after := by
      rw [Position.after_append, Position.after_append, leads]
      rfl
    have brace : before ++ (commentStart ++ content.reverse ++ commentEnd) =
        before ++ (commentStart ++ content.reverse ++ ['#', '#']) ++ ['}'] := by
      simp [commentEnd]
    refine .comment (ih _ ⟨?_, List.not_mem_nil⟩ fun _ _ => ⟨?_, ends.symm⟩)
    · rw [List.reverse_nil, List.append_nil, ends]
    · rw [brace, closed_brace]
  | case5 mark here p rest _ ih => exact ih _ h.reopen fun _ _ => outside p rfl
  | case6 mark here p rest pieces stop _ _ after scanned ih =>
    rw [scanned] at ih
    refine h.pieces (outside p rfl) fun next => ih _ ⟨?_, List.not_mem_nil⟩ fun _ _ => next
    rw [List.reverse_nil, List.append_nil]
    exact next.2.symm
  | case7 mark here p c rest _ left right ih =>
    exact ih _ (h.push left right) fun _ _ => outside p rfl
  | case8 mark here place content c rest _ ih =>
    refine ih _ ⟨h.1, ?_⟩ fun _ same => by cases same
    rw [List.reverse_cons, ← List.append_assoc, Position.after_append, h.2]
    rfl

theorem ofSource_follow (source : List Char) : Follow [] (ofSource source).1 :=
  scan_follow .start .start (.outside .empty) source [] ⟨rfl, List.not_mem_nil⟩
    fun _ _ => ⟨rfl, rfl⟩

theorem Follow.source_ne_nil {before : List Char} {piece : Piece} {rest : List Piece}
    (h : Follow before (piece :: rest)) : piece.source ≠ [] := by
  cases h with
  | text some' => exact some'
  | tag | comment | openComment => exact List.cons_ne_nil _ _

end Piece

namespace Event

/-- What a view of a source can give rise to. -/
inductive Accounts (rules : Tag.Rules) (v : View) : Option Instruction → Prop where
  | text (place : Position) : Accounts rules v (some ⟨place, .leaf (.text (String.ofList v.text))⟩)
  | comment (content : List Char) :
      v.text = Piece.commentStart ++ content ++ Piece.commentEnd →
        Accounts rules v (some ⟨v.place, .leaf (.comment (String.ofList content) true)⟩)
  | openComment (content : List Char) :
      v.text = Piece.commentStart ++ content → v.stop = byteLength v.source →
        Accounts rules v (some ⟨v.place, .leaf (.comment (String.ofList content) true)⟩)
  | tag (content : List Char) (op : Op) :
      v.text = inBraces content → '{' ∉ content → '}' ∉ content → op.inTag →
        Accounts rules v (some ⟨v.place, op⟩)
  | dropped (content : List Char) :
      rules.preprocess = false → v.text = inBraces ('^' :: content) → '{' ∉ content →
        '}' ∉ content → Accounts rules v none

section

variable (rules : Tag.Rules)

theorem instructions_append (front back : List Event) :
    instructions (front ++ back) = instructions front ++ instructions back :=
  List.filterMap_append

theorem instructions_problems (problems : List Diagnostic) :
    instructions (problems.map problem) = [] := by
  induction problems with
  | nil => rfl
  | cons d rest ih => exact ih

theorem ofReading_instructions (place mark : Position) (content : List Char) (r : TagReading) :
    instructions (ofReading place mark content r) =
      match r.reading with
      | .instruction op => [⟨place, op⟩]
      | .dropped => []
      | .plain => [⟨mark, .leaf (.text (String.ofList (inBraces content)))⟩]
      | .asText => [⟨place, .leaf (.text (String.ofList (inBraces content)))⟩] := by
  rw [ofReading, instructions_append, instructions_problems]
  cases r.reading <;> rfl

theorem caret_of_dropped {place : Position} {content : List Char}
    (dropped : (Tag.read rules place content).reading = .dropped) :
    rules.preprocess = false ∧ ∃ body, content = '^' :: body := by
  unfold Tag.read at dropped
  split at dropped
  · cases off : rules.preprocess with
    | false => exact ⟨rfl, _, rfl⟩
    | true =>
      rename_i body
      have shaped : (Tag.readBody rules place ('^' :: body) body).Shaped place
          ('^' :: body).length :=
        Tag.readBody_shaped rules (Nat.le_refl _) (Nat.le_succ body.length)
      simp only [off, if_true] at dropped
      generalize Tag.readBody rules place ('^' :: body) body = r at dropped shaped
      cases shaped with
      | clean reading kept => exact absurd dropped kept
      | refused | doubtful => cases dropped
  · split at dropped
    · cases dropped
    · have shaped : (Tag.readBody rules place content content).Shaped place content.length :=
        Tag.readBody_shaped rules (Nat.le_refl _) (Nat.le_refl _)
      generalize Tag.readBody rules place content content = r at dropped shaped
      cases shaped with
      | clean reading kept => exact absurd dropped kept
      | refused | doubtful => cases dropped

theorem inTag_of_read {place : Position} {content : List Char} {op : Op}
    (read : (Tag.read rules place content).reading = .instruction op) : op.inTag := by
  rcases Tag.read_shaped rules place content with dropped | shaped
  · rw [dropped] at read
    cases read
  · generalize Tag.read rules place content = r at read shaped
    cases shaped with
    | clean reading _ inTag => exact inTag op read
    | refused => cases read
    | doubtful d other _ _ inTag =>
      cases read
      exact inTag

theorem ofPiece_accounts {v : View} {piece : Piece} {rest : List Piece}
    (follow : Piece.Follow (takeBytes v.start v.source) (piece :: rest))
    (text : v.text = piece.source) (ends : rest = [] → v.stop = byteLength v.source) :
    ∃ outcome, Accounts rules v outcome ∧ instructions (ofPiece rules piece) = outcome.toList := by
  cases follow with
  | @text _ content _ _ _ =>
    have content_eq : v.text = content := text
    rw [← content_eq]
    exact ⟨_, .text v.place, rfl⟩
  | comment => exact ⟨_, .comment _ text, rfl⟩
  | openComment => exact ⟨_, .openComment _ text (ends rfl), rfl⟩
  | @tag before content _ noLeft noRight _ =>
    have braced : v.text = inBraces content := text
    let mark := Position.start.after (Piece.closed (takeBytes v.start v.source))
    have emitted : instructions (ofPiece rules (.tag v.place mark content)) = _ :=
      ofReading_instructions v.place mark content (Tag.read rules v.place content)
    change ∃ outcome, _ ∧ instructions (ofPiece rules (.tag v.place mark content)) = _
    rw [emitted]
    cases reading : (Tag.read rules v.place content).reading with
    | instruction op =>
      exact ⟨_, .tag content op braced noLeft noRight (inTag_of_read rules reading), rfl⟩
    | dropped =>
      obtain ⟨off, body, rfl⟩ := caret_of_dropped rules reading
      refine ⟨none, .dropped body off braced ?_ ?_, rfl⟩
      · exact fun member => noLeft (List.mem_cons_of_mem _ member)
      · exact fun member => noRight (List.mem_cons_of_mem _ member)
    | plain =>
      rw [← braced]
      exact ⟨_, .text mark, rfl⟩
    | asText =>
      rw [← braced]
      exact ⟨_, .text v.place, rfl⟩

theorem divides_of_pieces {About : View → Option Instruction → Prop}
    (each : ∀ {v : View} {piece : Piece} {rest : List Piece},
      Piece.Follow (takeBytes v.start v.source) (piece :: rest) → v.text = piece.source →
        (rest = [] → v.stop = byteLength v.source) →
          ∃ outcome, About v outcome ∧ instructions (ofPiece rules piece) = outcome.toList)
    (before : List Char) (pieces : List Piece) (follow : Piece.Follow before pieces) :
    ∃ parts : List (View × Option Instruction),
      Divides (before ++ pieces.flatMap Piece.source) (byteLength before) (parts.map Prod.fst) ∧
        (∀ part ∈ parts, About part.1 part.2) ∧
        instructions (pieces.flatMap (ofPiece rules)) = parts.filterMap Prod.snd := by
  induction pieces generalizing before with
  | nil =>
    refine ⟨[], ?_, by simp, rfl⟩
    rw [List.flatMap_nil, List.append_nil]
    exact .done
  | cons piece rest ih =>
    let v := View.between before piece.source (rest.flatMap Piece.source)
    have front : takeBytes v.start v.source = before := takeBytes_append _ _
    have next : Piece.Follow (before ++ piece.source) rest := by
      cases follow with
      | text _ _ further => exact further
      | tag _ _ further => exact further
      | comment further => exact further
      | openComment => exact .done _
    have some' := follow.source_ne_nil
    obtain ⟨parts, divides, accounts, emitted⟩ := ih (before ++ piece.source) next
    obtain ⟨outcome, account, own⟩ := each (v := v) (front ▸ follow)
      (View.between_text _ _ _) fun last => by
        subst last
        simp [v, View.between]
    refine ⟨(v, outcome) :: parts, ?_, ?_, ?_⟩
    · rw [List.append_assoc] at divides
      exact Divides.between some' divides
    · intro part member
      rcases List.mem_cons.mp member with rfl | member
      · exact account
      · exact accounts part member
    · rw [List.flatMap_cons, instructions_append, own, emitted]
      cases outcome <;> rfl

theorem pieces_divide (before : List Char) (pieces : List Piece)
    (follow : Piece.Follow before pieces) :
    ∃ parts : List (View × Option Instruction),
      Divides (before ++ pieces.flatMap Piece.source) (byteLength before) (parts.map Prod.fst) ∧
        (∀ part ∈ parts, Accounts rules part.1 part.2) ∧
        instructions (pieces.flatMap (ofPiece rules)) = parts.filterMap Prod.snd :=
  divides_of_pieces rules (ofPiece_accounts rules) before pieces follow

theorem instructions_of_upToProblem {events : List Event} {emitted : List Instruction}
    (h : upToProblem events = (emitted, none)) : emitted = instructions events := by
  induction events generalizing emitted with
  | nil =>
    cases h
    rfl
  | cons event rest ih =>
    cases event with
    | problem d => cases h
    | emit i =>
      rcases reading : upToProblem rest with ⟨before, outcome⟩
      simp only [upToProblem, reading, Prod.mk.injEq] at h
      obtain ⟨rfl, rfl⟩ := h
      exact congrArg (i :: ·) (ih reading)

end

/-- A source divides into views that each give rise to one instruction, in their order, or to none
where a tag is dropped. The end of the source comes last. A strict reading that meets no problem
emits the same instructions as a lenient one. -/
theorem ofSource_divides (rules : Tag.Rules) (source : List Char) :
    ∃ (parts : List (View × Option Instruction)) (stop : Position),
      Divides source 0 (parts.map Prod.fst) ∧
        (∀ part ∈ parts, Accounts rules part.1 part.2) ∧
        instructions (ofSource rules source) =
          parts.filterMap Prod.snd ++ [⟨stop, .eof⟩] ∧
        ∀ emitted, upToProblem (ofSource rules source) = (emitted, none) →
          emitted = instructions (ofSource rules source) := by
  obtain ⟨parts, divides, accounts, emitted⟩ :=
    pieces_divide rules [] (Piece.ofSource source).1 (Piece.ofSource_follow source)
  rw [List.nil_append, Piece.ofSource_whole] at divides
  have whole : instructions (ofSource rules source) =
      instructions ((Piece.ofSource source).1.flatMap (ofPiece rules)) ++
        [⟨(Piece.ofSource source).2, .eof⟩] :=
    instructions_append _ _
  refine ⟨parts, (Piece.ofSource source).2, divides, accounts, ?_, fun _ strict => ?_⟩
  · rw [whole, emitted]
  · exact instructions_of_upToProblem strict

end Event

end JsonTemplate

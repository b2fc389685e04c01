import JsonTemplate.Proofs.Template.Coverage

namespace JsonTemplate

open JsonTemplate.Text

namespace Piece

theorem scan_stop (mark here : Position) (mode : Mode) (rest : List Char) :
    (scan mark here mode rest).2 = here.after rest := by
  fun_induction scan mark here mode rest with
  | case1 | case2 => rfl
  | case3 mark here p rest pieces stop scanned ih =>
    rw [scanned] at ih
    exact ih
  | case4 mark here place content rest after pieces stop scanned ih =>
    rw [scanned] at ih
    exact ih
  | case5 mark here p rest _ ih => exact ih
  | case6 mark here p rest pieces stop _ _ after scanned ih =>
    rw [scanned] at ih
    exact ih
  | case7 mark here p c rest _ _ _ ih => exact ih
  | case8 mark here place content c rest _ ih => exact ih

theorem closed_eq_self_iff {text : List Char} :
    closed text = text ↔ ∀ c, text.getLast? = some c → c = '}' := by
  rw [closed, List.rdropWhile_eq_self_iff]
  cases text using List.reverseRecOn with
  | nil => simp
  | append_singleton front last => simp

theorem after_closed_iff {text : List Char} :
    Position.start.after (closed text) = .after .start text ↔ closed text = text := by
  obtain ⟨more, whole⟩ : closed text <+: text := List.rdropWhile_prefix _ _
  refine ⟨fun same => ?_, congrArg _⟩
  have further : (Position.start.after (closed text)).after more = .after .start text := by
    rw [← Position.after_append, whole]
  rw [← same, Position.after_eq_self] at further
  rwa [further, List.append_nil] at whole

end Piece

namespace Text.View

def front (v : View) : List Char := takeBytes v.start v.source

/-- The place where the text before a view starts: after the last right brace. -/
def textStart (v : View) : Position := .after .start (Piece.closed v.front)

end Text.View

namespace Event

variable {rules : Tag.Rules} {v : View}

/-- A text that stands for a tag which was not even taken for an instruction. -/
def IsPlain (rules : Tag.Rules) (v : View) (i : Instruction) : Prop :=
  i.op = .leaf (.text (String.ofList v.text)) ∧
    ∃ content, v.text = inBraces content ∧ '{' ∉ content ∧ '}' ∉ content ∧
      (Tag.read rules v.place content).reading = .plain

/-- Where an instruction is: at the start of its view, unless it is a plain tag, which is where the
text before it starts. -/
structure IsPlaced (rules : Tag.Rules) (v : View) (i : Instruction) : Prop where
  here : i.place = v.place ↔
    (IsPlain rules v i → ∀ c, v.front.getLast? = some c → c = '}')
  plain : IsPlain rules v i → i.place = v.textStart

theorem IsPlaced.of_not_plain {op : Op} (h : ¬IsPlain rules v ⟨v.place, op⟩) :
    IsPlaced rules v ⟨v.place, op⟩ :=
  ⟨iff_of_true rfl fun plain => absurd plain h, fun plain => absurd plain h⟩

theorem isPlaced_plain {op : Op} (h : IsPlain rules v ⟨v.textStart, op⟩) :
    IsPlaced rules v ⟨v.textStart, op⟩ := by
  refine ⟨?_, fun _ => rfl⟩
  rw [← Piece.closed_eq_self_iff]
  exact Piece.after_closed_iff.trans ⟨fun same _ => same, fun same => same h⟩

theorem ofPiece_isPlaced {piece : Piece} {rest : List Piece}
    (follow : Piece.Follow v.front (piece :: rest)) (text : v.text = piece.source) :
    ∀ i ∈ instructions (ofPiece rules piece), IsPlaced rules v i := by
  intro i member
  cases follow with
  | @text _ content _ _ closed _ =>
    obtain rfl := List.mem_singleton.mp member
    have same : v.textStart = v.place := congrArg (Position.start.after ·) closed
    exact ⟨iff_of_true rfl fun _ => Piece.closed_eq_self_iff.mp closed, fun _ => same.symm⟩
  | comment =>
    obtain rfl := List.mem_singleton.mp member
    exact .of_not_plain fun plain => by cases plain.1
  | openComment =>
    obtain rfl := List.mem_singleton.mp member
    exact .of_not_plain fun plain => by cases plain.1
  | @tag _ content _ noLeft noRight _ =>
    have braced : v.text = inBraces content := text
    have emitted : instructions (ofPiece rules (.tag v.place v.textStart content)) = _ :=
      ofReading_instructions v.place v.textStart content (Tag.read rules v.place content)
    change i ∈ instructions (ofPiece rules (.tag v.place v.textStart content)) at member
    rw [emitted] at member
    have plain_iff {i : Instruction} (plain : IsPlain rules v i) :
        (Tag.read rules v.place content).reading = .plain := by
      obtain ⟨-, other, braced', -, -, plain⟩ := plain
      obtain rfl : other = content := by
        simpa [inBraces] using braced'.symm.trans braced
      exact plain
    -- Only a plain tag gives rise to an instruction at the mark.
    cases reading : (Tag.read rules v.place content).reading with
    | dropped => rw [reading] at member; cases member
    | instruction op =>
      rw [reading] at member
      obtain rfl := List.mem_singleton.mp member
      exact .of_not_plain fun plain => by cases reading.symm.trans (plain_iff plain)
    | asText =>
      rw [reading] at member
      obtain rfl := List.mem_singleton.mp member
      exact .of_not_plain fun plain => by cases reading.symm.trans (plain_iff plain)
    | plain =>
      rw [reading] at member
      obtain rfl := List.mem_singleton.mp member
      refine isPlaced_plain ⟨?_, content, braced, noLeft, noRight, reading⟩
      rw [braced]

/-- A source divides into views, and the instruction of each of them is placed by it. The end of the
source is at its end. A strict reading that meets no problem emits the same instructions. -/
theorem ofSource_places (rules : Tag.Rules) (source : List Char) :
    ∃ parts : List (View × Option Instruction),
      Divides source 0 (parts.map Prod.fst) ∧
        (∀ part ∈ parts, Accounts rules part.1 part.2 ∧
          ∀ i, part.2 = some i → IsPlaced rules part.1 i) ∧
        instructions (ofSource rules source) =
          parts.filterMap Prod.snd ++ [⟨.after .start source, .eof⟩] ∧
        ∀ emitted, upToProblem (ofSource rules source) = (emitted, none) →
          emitted = instructions (ofSource rules source) := by
  have each {v : View} {piece : Piece} {rest : List Piece}
      (follow : Piece.Follow v.front (piece :: rest)) (text : v.text = piece.source)
      (ends : rest = [] → v.stop = byteLength v.source) :
      ∃ outcome, (Accounts rules v outcome ∧ ∀ i, outcome = some i → IsPlaced rules v i) ∧
        instructions (ofPiece rules piece) = outcome.toList := by
    obtain ⟨outcome, accounts, own⟩ := ofPiece_accounts rules follow text ends
    refine ⟨outcome, ⟨accounts, fun i given => ?_⟩, own⟩
    exact ofPiece_isPlaced follow text i (by rw [own, given]; exact List.mem_singleton.mpr rfl)
  obtain ⟨parts, divides, about, emitted⟩ :=
    divides_of_pieces rules each [] (Piece.ofSource source).1 (Piece.ofSource_follow source)
  rw [List.nil_append, Piece.ofSource_whole] at divides
  have ended : (Piece.ofSource source).2 = .after .start source := Piece.scan_stop ..
  have whole : instructions (ofSource rules source) =
      instructions ((Piece.ofSource source).1.flatMap (ofPiece rules)) ++
        [⟨(Piece.ofSource source).2, .eof⟩] := instructions_append _ _
  refine ⟨parts, divides, about, ?_, fun _ => instructions_of_upToProblem⟩
  rw [whole, emitted, ended]

/-- The tag is no instruction, and it is not at its own place but at that of the text before it. -/
theorem plain_tag_misplaced :
    let source := "a\x7b b\x7d".toList
    let v := View.make source 1 5
    v.text = "\x7b b\x7d".toList ∧ v.place = ⟨1, 2⟩ ∧
      instructions (ofSource ⟨.empty, .unlimited, false⟩ source) =
        [⟨⟨1, 1⟩, .leaf (.text "a")⟩, ⟨⟨1, 1⟩, .leaf (.text "\x7b b\x7d")⟩, ⟨⟨1, 6⟩, .eof⟩] := by
  exact ⟨by decide +kernel, by decide +kernel, by with_unfolding_all rfl⟩

end Event

end JsonTemplate

import JsonTemplate.Proofs.Template.Cut
import JsonTemplate.Proofs.Template.TagProblem
import JsonTemplate.Template.Event

namespace JsonTemplate

open JsonTemplate.Text

def Event.concern : Event → List Position
  | .problem d => [d.place]
  | .emit ⟨_, .leaf _⟩ => []
  | .emit i => [i.place]

namespace Event

/-- The places of problems ascend from one place to another. -/
structure Ordered (low high : Position) (events : List Event) : Prop where
  ascending : (events.flatMap concern).Pairwise (· ≤ ·)
  bounds : ∀ p ∈ events.flatMap concern, low ≤ p ∧ p ≤ high

theorem Ordered.nil (low high : Position) : Ordered low high [] := ⟨.nil, by simp⟩

theorem Ordered.append {low middle high : Position} {front back : List Event}
    (first : Ordered low middle front) (second : Ordered middle high back)
    (below : low ≤ middle) (above : middle ≤ high) : Ordered low high (front ++ back) := by
  refine ⟨?_, ?_⟩
  · rw [List.flatMap_append, List.pairwise_append]
    refine ⟨first.ascending, second.ascending, fun p hp q hq => ?_⟩
    exact Position.le_trans (first.bounds p hp).2 (second.bounds q hq).1
  · intro p hp
    rw [List.flatMap_append] at hp
    rcases List.mem_append.mp hp with hp | hp
    · exact ⟨(first.bounds p hp).1, Position.le_trans (first.bounds p hp).2 above⟩
    · exact ⟨Position.le_trans below (second.bounds p hp).1, (second.bounds p hp).2⟩

theorem Ordered.of_single {low high p : Position} {events : List Event}
    (same : ∀ q ∈ events.flatMap concern, q = p) (below : low ≤ p) (above : p ≤ high) :
    Ordered low high events := by
  refine ⟨?_, fun q hq => by rw [same q hq]; exact ⟨below, above⟩⟩
  refine List.Pairwise.imp_of_mem ?_ (List.pairwise_of_forall (R := fun _ _ => True) (by simp))
  intro q r hq hr _
  rw [same q hq, same r hr]
  exact Position.le_refl p

theorem Ordered.of_text {low high : Position} {events : List Event}
    (silent : events.flatMap concern = []) : Ordered low high events :=
  ⟨by rw [silent]; exact .nil, by simp [silent]⟩

@[simp] theorem concern_problem (d : Diagnostic) : concern (.problem d) = [d.place] := rfl

@[simp] theorem concern_emitText (place : Position) (content : List Char) :
    concern (emitText place content) = [] := rfl

@[simp] theorem concern_emitComment (place : Position) (content : List Char) :
    concern (emitComment place content) = [] := rfl

theorem mem_concern_emit {p : Position} {i : Instruction} (h : p ∈ concern (.emit i)) :
    p = i.place := by
  obtain ⟨place, op⟩ := i
  cases op <;> simp_all [concern]

theorem ordered_tag (rules : Tag.Rules) (place mark : Position) (content : List Char) :
    Ordered place (place.after ('{' :: content)) (ofPiece rules (.tag place mark content)) := by
  have wide : content.length ≤ ('{' :: content).length := Nat.le_succ _
  have dropped : Ordered place (place.after ('{' :: content))
      (ofReading place mark content ⟨[], .dropped⟩) := .nil _ _
  rw [ofPiece]
  rcases Tag.read_shaped rules place content with none | shaped
  · rw [none]
    exact dropped
  generalize Tag.read rules place content = r at shaped
  cases shaped with
  | clean reading =>
    refine .of_single (p := place) ?_ (Position.le_refl _) (Position.le_after _ _)
    intro q hq
    cases reading with
    | instruction op => exact mem_concern_emit (by simpa [ofReading] using hq)
    | dropped | plain | asText => simp [ofReading] at hq
  | refused d columns inside at' =>
    refine .of_single (p := d.place) ?_ ?_ ?_
    · simp [ofReading]
    · rw [at']
      exact Position.le_forward _ _
    · rw [at']
      exact Position.forward_le_after place (Nat.le_trans inside wide)
  | doubtful d op at' =>
    refine .of_single (p := place) ?_ (Position.le_refl _) (Position.le_after _ _)
    intro q hq
    simp only [ofReading, List.map_cons, List.map_nil, List.flatMap_append, List.mem_append] at hq
    rcases hq with hq | hq
    · exact (by simpa using hq : q = d.place).trans at'
    · exact mem_concern_emit (by simpa using hq)

theorem ordered_textPiece (rules : Tag.Rules) (low high mark : Position) (content : List Char) :
    Ordered low high ((Piece.textPiece mark content).flatMap (ofPiece rules)) := by
  refine .of_text ?_
  unfold Piece.textPiece
  split <;> simp [ofPiece]

end Event

namespace Piece

/-- What is known of the places of a scan: the last piece ended before what is pending, and a
pending brace stands where its text leads to the next character. -/
def Mode.Placed (mark here : Position) : Mode → Prop
  | .outside ⟨_, none⟩ => mark ≤ here
  | .outside ⟨_, some (place, content)⟩ =>
    mark ≤ place ∧ place.after ('{' :: content.reverse) = here
  | .inside _ _ => mark ≤ here

theorem Mode.Placed.mark_le {mark here : Position} {mode : Mode} (h : mode.Placed mark here) :
    mark ≤ here := by
  match mode, h with
  | .outside ⟨_, none⟩, h => exact h
  | .inside _ _, h => exact h
  | .outside ⟨_, some (place, content)⟩, ⟨below, at'⟩ =>
    rw [← at']
    exact Position.le_trans below (Position.le_after _ _)

theorem Mode.Placed.push {mark here : Position} {p : Pending} {c : Char}
    (h : (Mode.outside p).Placed mark here) :
    (Mode.outside (p.push c)).Placed mark (here.next c) := by
  match p, h with
  | ⟨_, none⟩, h => exact Position.le_trans h (Position.le_next _ _)
  | ⟨_, some (place, content)⟩, ⟨below, at'⟩ =>
    refine ⟨below, ?_⟩
    rw [List.reverse_cons, ← List.cons_append, Position.after_append, at']
    rfl

theorem ordered_pieces (rules : Tag.Rules) {mark here : Position} {p : Pending}
    (h : (Mode.outside p).Placed mark here) :
    Event.Ordered mark (here.next '}') ((p.pieces mark).flatMap (Event.ofPiece rules)) := by
  match p, h with
  | ⟨before, none⟩, h => exact .of_text (by simp [Pending.pieces, Event.ofPiece])
  | ⟨before, some (place, content)⟩, ⟨below, at'⟩ =>
    have tag := Event.ordered_tag rules place mark content.reverse
    rw [at'] at tag
    have within : place ≤ here := by
      rw [← at']
      exact Position.le_after _ _
    rw [Pending.pieces, List.flatMap_append]
    refine (Event.ordered_textPiece rules mark place mark _).append ?_ below
      (Position.le_trans within (Position.le_next _ _))
    rw [List.flatMap_singleton]
    exact ⟨tag.ascending, fun q hq =>
      ⟨(tag.bounds q hq).1, Position.le_trans (tag.bounds q hq).2 (Position.le_next _ _)⟩⟩

theorem scan_ordered (rules : Tag.Rules) (mark here : Position) (mode : Mode) (rest : List Char)
    (h : mode.Placed mark here) :
    Event.Ordered mark (scan mark here mode rest).2
        ((scan mark here mode rest).1.flatMap (Event.ofPiece rules)) ∧
      here ≤ (scan mark here mode rest).2 := by
  -- Along the cases of the scan; `Placed` is what each of them keeps.
  fun_induction scan mark here mode rest with
  | case1 mark here p =>
    exact ⟨Event.ordered_textPiece rules _ _ _ _, Position.le_refl _⟩
  | case2 mark here place content =>
    refine ⟨.of_single (p := mark) ?_ (Position.le_refl _) h.mark_le, Position.le_refl _⟩
    simp [Event.ofPiece, Diagnostic.compile, Diagnostic.ofFault]
  | case3 mark here p rest pieces stop scanned ih =>
    rw [scanned] at ih
    have below : mark ≤ here.forward 3 := Position.le_trans h.mark_le (Position.le_forward _ _)
    obtain ⟨ordered, further⟩ := ih below
    refine ⟨?_, Position.le_trans (Position.le_forward _ _) further⟩
    rw [List.flatMap_append]
    exact (Event.ordered_textPiece rules mark mark mark _).append ordered (Position.le_refl _)
      (Position.le_trans below further)
  | case4 mark here place content rest after pieces stop scanned ih =>
    rw [scanned] at ih
    obtain ⟨ordered, further⟩ := ih (Position.le_refl after)
    have below : mark ≤ after := Position.le_trans h.mark_le (Position.le_forward _ _)
    refine ⟨?_, Position.le_trans (Position.le_forward _ _) further⟩
    rw [List.flatMap_cons]
    exact (Event.Ordered.of_text (by simp [Event.ofPiece])).append ordered below further
  | case5 mark here p rest _ ih =>
    obtain ⟨ordered, further⟩ := ih ⟨h.mark_le, rfl⟩
    exact ⟨ordered, Position.le_trans (Position.le_next _ _) further⟩
  | case6 mark here p rest pieces stop _ _ after scanned ih =>
    rw [scanned] at ih
    obtain ⟨ordered, further⟩ := ih (Position.le_refl after)
    have below : mark ≤ after := Position.le_trans h.mark_le (Position.le_next _ _)
    refine ⟨?_, Position.le_trans (Position.le_next _ _) further⟩
    rw [List.flatMap_append]
    exact (ordered_pieces rules h).append ordered below further
  | case7 mark here p c rest _ _ _ ih =>
    obtain ⟨ordered, further⟩ := ih h.push
    exact ⟨ordered, Position.le_trans (Position.le_next _ _) further⟩
  | case8 mark here place content c rest _ ih =>
    obtain ⟨ordered, further⟩ := ih (Position.le_trans h.mark_le (Position.le_next _ _))
    exact ⟨ordered, Position.le_trans (Position.le_next _ _) further⟩

end Piece

theorem Event.ofSource_ordered (rules : Tag.Rules) (source : List Char) :
    ((ofSource rules source).flatMap concern).Pairwise (· ≤ ·) := by
  obtain ⟨ordered, further⟩ :=
    Piece.scan_ordered rules .start .start (.outside .empty) source (Position.le_refl _)
  have ended : Ordered _ _ [emit ⟨(Piece.ofSource source).2, .eof⟩] :=
    .of_single (p := (Piece.ofSource source).2) (by simp [concern]) (Position.le_refl _)
      (Position.le_refl _)
  exact (ordered.append ended further (Position.le_refl _)).ascending

end JsonTemplate

import JsonTemplate.Proofs.Template.TagCases
import JsonTemplate.Proofs.Text.Position

namespace JsonTemplate

open JsonTemplate.Text JsonTemplate.Pattern

/-- How a tag of a place can be read, with a bound on the columns of problems. -/
inductive TagReading.Shaped (place : Position) (width : Nat) : TagReading → Prop where
  | clean (reading : Reading) :
      reading ≠ .dropped → (∀ op, reading = .instruction op → op.inTag) →
        Shaped place width ⟨[], reading⟩
  | refused (d : Diagnostic) (columns : Nat) :
      columns ≤ width → d.place = place.forward columns → d.ofCompile →
        Shaped place width ⟨[d], .asText⟩
  | doubtful (d : Diagnostic) (op : Op) :
      d.place = place → d.ofCompile → op.inTag → Shaped place width ⟨[d], .instruction op⟩

namespace Tag

theorem error_of_map {ε α β : Type} {f : α → β} {x : Except ε α} {e : ε}
    (h : x.map f = .error e) : x = .error e := by
  cases x with
  | error => cases h; rfl
  | ok => cases h

section Shapes

variable {place : Position} {width : Nat}

theorem accept_shaped {op : Op} (inTag : op.inTag) : (accept op).Shaped place width := by
  refine .clean _ nofun fun other same => ?_
  cases same
  exact inTag

theorem text_shaped : TagReading.Shaped place width ⟨[], .asText⟩ := .clean _ nofun nofun

theorem plain_shaped : TagReading.Shaped place width ⟨[], .plain⟩ := .clean _ nofun nofun

theorem covers_shaped : Covers place (TagReading.Shaped place width) where
  accept inTag _ := accept_shaped inTag
  refuse at' stage _ := .refused _ 0 (Nat.zero_le _) at' stage
  doubt at' stage _ inTag := .doubtful _ _ at' stage inTag

theorem readFormatters_error {rules : Rules} {anchor : List Char} {fuel : Nat} {text : List Char}
    {r : TagReading} (h : readFormatters rules place anchor fuel text = .error r) :
    ∃ d columns, columns ≤ anchor.length ∧ d.place = place.forward columns ∧ d.ofCompile ∧
      r = refuse d := by
  have refused (d : Diagnostic) (back : Nat)
      (at' : d.place = place.forward (anchor.length - back)) (stage : d.ofCompile) :
      ∃ e columns, columns ≤ anchor.length ∧ e.place = place.forward columns ∧ e.ofCompile ∧
        refuse d = refuse e :=
    ⟨d, _, Nat.sub_le _ _, at', stage, rfl⟩
  induction fuel generalizing text with
  | zero => simp [readFormatters] at h
  | succ fuel ih =>
    unfold readFormatters at h
    split at h
    · rename_i more afterPipe same
      cases same
      dsimp only at h
      split at h
      · cases h
        exact refused _ _ rfl rfl
      · split at h
        · cases h
          exact refused _ _ rfl rfl
        · split at h
          · cases h
            exact refused _ _ rfl rfl
          · split at h
            · cases h
              exact refused _ _ rfl rfl
            · exact ih (error_of_map h)
    · cases h

theorem withFormatters_shaped (rules : Rules) {anchor : List Char} (inside : anchor.length ≤ width)
    (text : List Char) {make : List Call → Op} (inTag : ∀ calls, (make calls).inTag) :
    (withFormatters rules place anchor text make).Shaped place width := by
  unfold withFormatters
  split
  · rename_i r failed
    obtain ⟨d, columns, within, at', stage, rfl⟩ := readFormatters_error failed
    exact .refused d columns (Nat.le_trans within inside) at' stage
  · exact accept_shaped (inTag _)
  · exact text_shaped

theorem readBind_shaped (rules : Rules) {text : List Char} (inside : text.length ≤ width) :
    (readInstruction rules place .bind text).Shaped place width :=
  covers_shaped.readBind rules text fun _ _ _ _ _ _ _ _ =>
    withFormatters_shaped rules inside _ fun _ => rfl

theorem readOutput_shaped (rules : Rules) {anchor : List Char} (inside : anchor.length ≤ width)
    (text : List Char) : (readOutput rules place anchor text).Shaped place width := by
  unfold readOutput
  split
  · exact plain_shaped
  · exact withFormatters_shaped rules inside _ fun _ => rfl

theorem readBody_shaped (rules : Rules) {anchor text : List Char} (inside : anchor.length ≤ width)
    (within : text.length ≤ width) : (readBody rules place anchor text).Shaped place width := by
  refine covers_shaped.readBody rules (readOutput_shaped rules inside _) fun rest whole => ?_
  rw [whole, List.length_append] at within
  exact readBind_shaped rules (Nat.le_of_add_left_le within)

end Shapes

theorem read_shaped (rules : Rules) (place : Position) (content : List Char) :
    read rules place content = ⟨[], .dropped⟩ ∨
      (read rules place content).Shaped place content.length := by
  unfold read
  split
  · split
    · exact .inr (readBody_shaped rules (Nat.le_refl _) (Nat.le_succ _))
    · exact .inl rfl
  · split
    · exact .inr plain_shaped
    · exact .inr (readBody_shaped rules (Nat.le_refl _) (Nat.le_refl _))

end Tag

end JsonTemplate

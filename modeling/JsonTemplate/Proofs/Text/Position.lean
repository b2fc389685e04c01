import JsonTemplate.Text.Offset

namespace JsonTemplate.Text.Position

instance : LE Position := ⟨fun p q => q.before p = false⟩

theorem le_iff {p q : Position} :
    p ≤ q ↔ p.line < q.line ∨ p.line = q.line ∧ p.column ≤ q.column := by
  change q.before p = false ↔ _
  simp only [before, Bool.or_eq_false_iff, Bool.and_eq_false_iff, decide_eq_false_iff_not,
    beq_eq_false_iff_ne]
  omega

theorem le_refl (p : Position) : p ≤ p := by
  rw [le_iff]
  omega

theorem le_trans {p q r : Position} (first : p ≤ q) (second : q ≤ r) : p ≤ r := by
  rw [le_iff] at *
  omega

theorem le_forward (p : Position) (columns : Nat) : p ≤ p.forward columns := by
  rw [le_iff]
  exact .inr ⟨rfl, Nat.le_add_right _ _⟩

theorem forward_forward (p : Position) (columns more : Nat) :
    (p.forward columns).forward more = p.forward (columns + more) := by
  simp only [forward, Nat.add_assoc]

theorem le_next (p : Position) (c : Char) : p ≤ p.next c := by
  rw [le_iff]
  unfold next
  split
  · exact .inl (Nat.lt_succ_self _)
  · exact .inr ⟨rfl, Nat.le_succ _⟩

theorem le_after (p : Position) (text : List Char) : p ≤ p.after text := by
  induction text generalizing p with
  | nil => exact le_refl p
  | cons c rest ih => exact le_trans (le_next p c) (ih (p.next c))

theorem after_append (p : Position) (front back : List Char) :
    p.after (front ++ back) = (p.after front).after back :=
  List.foldl_append ..

theorem after_eq_self {p : Position} {text : List Char} :
    p.after text = p ↔ text = [] := by
  refine ⟨fun same => ?_, fun empty => by rw [empty]; rfl⟩
  cases text with
  | nil => rfl
  | cons c rest =>
    have further : p.next c ≤ p := by
      have whole := le_after (p.next c) rest
      rwa [show (p.next c).after rest = p from same] at whole
    rw [le_iff, next] at further
    split at further <;> dsimp only at further <;> omega

theorem after_eq_forward (p : Position) {text : List Char} (line : '\n' ∉ text) :
    p.after text = p.forward text.length := by
  induction text generalizing p with
  | nil => rfl
  | cons c rest ih =>
    rw [List.mem_cons, not_or] at line
    have step : p.next c = p.forward 1 := if_neg (Ne.symm line.1)
    change (p.next c).after rest = _
    rw [step, ih _ line.2]
    simp only [forward, List.length_cons, Nat.add_assoc, Nat.add_comm 1]

theorem line_lt_after (p : Position) {text : List Char} (h : '\n' ∈ text) :
    p.line < (p.after text).line := by
  obtain ⟨front, back, rfl⟩ := List.append_of_mem h
  have first := le_after p front
  have second := le_after ((p.after front).next '\n') back
  have below : ((p.after front).next '\n').line = (p.after front).line + 1 := rfl
  rw [le_iff] at first second
  rw [after_append]
  change p.line < (((p.after front).next '\n').after back).line
  omega

theorem forward_le_after (p : Position) {text : List Char} {columns : Nat}
    (inside : columns ≤ text.length) : p.forward columns ≤ p.after text := by
  induction text generalizing p columns with
  | nil =>
    cases Nat.le_zero.mp inside
    exact le_refl p
  | cons c rest ih =>
    cases columns with
    | zero => exact le_after p (c :: rest)
    | succ columns =>
      by_cases newline : c = '\n'
      · subst newline
        have further := le_after (p.next '\n') rest
        have below : (p.next '\n').line = p.line + 1 := rfl
        rw [le_iff] at further ⊢
        change p.line < ((p.next '\n').after rest).line ∨ _
        omega
      · have shifted : p.forward (columns + 1) = (p.next c).forward columns := by
          simp only [forward, next, newline, if_false, Nat.add_assoc, Nat.add_comm 1]
        rw [shifted]
        exact ih (p.next c) (Nat.le_of_succ_le_succ inside)

end JsonTemplate.Text.Position

import JsonTemplate.Text.View

namespace JsonTemplate.Text

theorem byteLength_append (front back : List Char) :
    byteLength (front ++ back) = byteLength front + byteLength back := by
  induction front with
  | nil => exact (Nat.zero_add _).symm
  | cons c rest ih =>
    change c.utf8Size + byteLength (rest ++ back) = c.utf8Size + byteLength rest + byteLength back
    rw [ih, Nat.add_assoc]

theorem byteLength_pos {text : List Char} (h : text ≠ []) : 0 < byteLength text := by
  cases text with
  | nil => exact absurd rfl h
  | cons c rest => exact Nat.add_pos_left c.utf8Size_pos _

theorem dropBytes?_append (front back : List Char) :
    dropBytes? (byteLength front) (front ++ back) = some back := by
  induction front with
  | nil => cases back <;> rfl
  | cons c rest ih =>
    have positive := c.utf8Size_pos
    obtain ⟨n, size⟩ : ∃ n, byteLength (c :: rest) = n + 1 :=
      Nat.exists_eq_add_one.mpr (byteLength_pos (List.cons_ne_nil c rest))
    have split : n + 1 = c.utf8Size + byteLength rest := size.symm
    have fits : c.utf8Size ≤ n + 1 := by omega
    have left : n + 1 - c.utf8Size = byteLength rest := by omega
    rw [size, List.cons_append, dropBytes?, if_pos fits, left, ih]

theorem takeBytes_append (front back : List Char) :
    takeBytes (byteLength front) (front ++ back) = front := by
  induction front with
  | nil =>
    cases back with
    | nil => rfl
    | cons c rest =>
      have positive := c.utf8Size_pos
      have beyond : ¬c.utf8Size ≤ byteLength [] := by
        change ¬c.utf8Size ≤ 0
        omega
      rw [List.nil_append, takeBytes, if_neg beyond]
  | cons c rest ih =>
    have fits : c.utf8Size ≤ byteLength (c :: rest) := Nat.le_add_right _ _
    have left : byteLength (c :: rest) - c.utf8Size = byteLength rest := Nat.add_sub_cancel_left ..
    rw [List.cons_append, takeBytes, if_pos fits, left, ih]

theorem isBoundary_append (front back : List Char) :
    isBoundary (front ++ back) (byteLength front) := by
  rw [isBoundary, dropBytes?_append]
  rfl

/-- Views of a source that divide it from a byte on: none is empty, each starts where the one before
it stops, and all are cut between characters. -/
inductive Divides (source : List Char) : Nat → List View → Prop where
  | done : Divides source (byteLength source) []
  | cons {v : View} {rest : List View} :
      v.source = source → v.start < v.stop → isBoundary source v.start →
        isBoundary source v.stop → Divides source v.stop rest → Divides source v.start (v :: rest)

namespace View

def place (v : View) : Position := Position.start.after (takeBytes v.start v.source)

def between (before text after : List Char) : View where
  source := before ++ (text ++ after)
  start := byteLength before
  stop := byteLength (before ++ text)
  start_le_stop := by
    rw [byteLength_append]
    exact Nat.le_add_right _ _
  stop_le := by
    rw [← List.append_assoc, byteLength_append (before ++ text)]
    exact Nat.le_add_right _ _

theorem between_text (before text after : List Char) : (between before text after).text = text := by
  have size : byteLength (before ++ text) - byteLength before = byteLength text := by
    rw [byteLength_append]
    exact Nat.add_sub_cancel_left ..
  change slice (before ++ (text ++ after)) (byteLength before) (byteLength (before ++ text)) = text
  rw [slice, dropBytes?_append]
  change takeBytes _ (text ++ after) = text
  rw [size, takeBytes_append]

end View

theorem Divides.between {before text after : List Char} {rest : List View} (some' : text ≠ [])
    (h : Divides (before ++ (text ++ after)) (byteLength (before ++ text)) rest) :
    Divides (before ++ (text ++ after)) (byteLength before)
      (View.between before text after :: rest) := by
  have more : byteLength before < byteLength (before ++ text) := by
    rw [byteLength_append]
    exact Nat.lt_add_of_pos_right (byteLength_pos some')
  have stop : isBoundary (before ++ (text ++ after)) (byteLength (before ++ text)) := by
    rw [← List.append_assoc]
    exact isBoundary_append _ _
  exact .cons (v := View.between before text after) rfl more (isBoundary_append _ _) stop h

end JsonTemplate.Text

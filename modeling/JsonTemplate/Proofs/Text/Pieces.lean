import JsonTemplate.Text.Pieces

namespace JsonTemplate.Text

theorem joinWith_cons (separator first : List Char) (rest : List (List Char)) :
    joinWith separator (first :: rest) = first ++ rest.flatMap (separator ++ ·) := by
  induction rest generalizing first with
  | nil => simp [joinWith]
  | cons second rest ih => simp [joinWith, ih]

theorem joinWith_concat (separator last : List Char) {texts : List (List Char)} (h : texts ≠ []) :
    joinWith separator (texts ++ [last]) = joinWith separator texts ++ (separator ++ last) := by
  obtain ⟨first, rest, rfl⟩ := List.exists_cons_of_ne_nil h
  simp [joinWith_cons]

variable {separator : Char}

theorem pieces_ne_nil (text : List Char) : pieces separator text ≠ [] := by
  fun_induction pieces separator text <;> simp

theorem mem_pieces {text piece : List Char} (h : piece ∈ pieces separator text) :
    ∀ c ∈ piece, c ≠ separator ∧ c ∈ text := by
  fun_induction pieces separator text generalizing piece with
  | case1 => simp_all
  | case2 rest ih =>
    intro d member
    rcases List.mem_cons.mp h with rfl | h
    · cases member
    · exact ⟨(ih h d member).1, List.mem_cons_of_mem _ (ih h d member).2⟩
  | case3 c rest other none ih => exact absurd none (pieces_ne_nil rest)
  | case4 c rest other first others split ih =>
    intro d member
    rw [split] at ih
    rcases List.mem_cons.mp h with rfl | h
    · rcases List.mem_cons.mp member with rfl | member
      · exact ⟨other, List.mem_cons_self⟩
      · have inside := ih List.mem_cons_self d member
        exact ⟨inside.1, List.mem_cons_of_mem _ inside.2⟩
    · have inside := ih (List.mem_cons_of_mem _ h) d member
      exact ⟨inside.1, List.mem_cons_of_mem _ inside.2⟩

theorem flatten_pieces (text : List Char) :
    (pieces separator text).flatten = text.filter (· != separator) := by
  fun_induction pieces separator text with
  | case1 => rfl
  | case2 rest ih => simpa using ih
  | case3 c rest other none => exact absurd none (pieces_ne_nil rest)
  | case4 c rest other first others split ih =>
    rw [split] at ih
    simpa [other] using ih

theorem pieces_of_not_mem {text : List Char} (h : separator ∉ text) :
    pieces separator text = [text] := by
  induction text with
  | nil => rfl
  | cons c rest ih =>
    obtain ⟨other, inside⟩ := List.ne_and_not_mem_of_not_mem_cons h
    simp [pieces, Ne.symm other, ih inside]

theorem pieces_append {first : List Char} (h : separator ∉ first) (rest : List Char) :
    pieces separator (first ++ separator :: rest) = first :: pieces separator rest := by
  induction first with
  | nil => simp [pieces]
  | cons c more ih =>
    obtain ⟨other, inside⟩ := List.ne_and_not_mem_of_not_mem_cons h
    simp [pieces, Ne.symm other, ih inside]

theorem pieces_joinWith {first : List Char} {rest : List (List Char)} (h : separator ∉ first)
    (others : ∀ text ∈ rest, separator ∉ text) :
    pieces separator (joinWith [separator] (first :: rest)) = first :: rest := by
  induction rest generalizing first with
  | nil => exact pieces_of_not_mem h
  | cons second rest ih =>
    have later := ih (others second List.mem_cons_self)
      fun text member => others text (List.mem_cons_of_mem _ member)
    have joined : joinWith [separator] (first :: second :: rest) =
        first ++ separator :: joinWith [separator] (second :: rest) := by simp [joinWith]
    rw [joined, pieces_append h, later]

theorem mem_filter_pieces {text piece : List Char}
    (h : piece ∈ (pieces separator text).filter (!·.isEmpty)) :
    separator ∉ piece ∧ piece ≠ [] := by
  obtain ⟨inside, full⟩ := List.mem_filter.mp h
  exact ⟨fun same => (mem_pieces inside _ same).1 rfl, by simpa using full⟩

theorem flatten_filter_pieces (text : List Char) :
    ((pieces separator text).filter (!·.isEmpty)).flatten = text.filter (· != separator) := by
  rw [List.flatten_filter_not_isEmpty, flatten_pieces]

theorem filter_pieces_joinWith {texts : List (List Char)}
    (whole : ∀ text ∈ texts, separator ∉ text ∧ text ≠ []) :
    (pieces separator (joinWith [separator] texts)).filter (!·.isEmpty) = texts := by
  cases texts with
  | nil => rfl
  | cons first rest =>
    have split : pieces separator (joinWith [separator] (first :: rest)) = first :: rest :=
      pieces_joinWith (whole first List.mem_cons_self).1
        fun text member => (whole text (List.mem_cons_of_mem _ member)).1
    rw [split]
    exact List.filter_eq_self.mpr fun text member => by simpa using (whole text member).2

end JsonTemplate.Text

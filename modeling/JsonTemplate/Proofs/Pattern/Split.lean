import JsonTemplate.Pattern.Recognizer

namespace JsonTemplate.Pattern

theorem ok_of_map {ε α β : Type} {f : α → β} {x : Except ε α} {y : β} (h : x.map f = .ok y) :
    ∃ a, x = .ok a ∧ f a = y := by
  cases x with
  | error => cases h
  | ok a =>
    cases h
    exact ⟨a, rfl, rfl⟩

/-- The text does not start with a character of a class. -/
def Stops (class' : Char → Bool) (text : List Char) : Prop := ∀ c ∈ text.head?, class' c = false

section Stops

variable {class' : Char → Bool}

theorem Stops.nil : Stops class' [] := by simp [Stops]

theorem Stops.cons {c : Char} (h : class' c = false) (rest : List Char) :
    Stops class' (c :: rest) := by
  simpa [Stops] using h

theorem Stops.append {front back : List Char} (first : Stops class' front)
    (second : Stops class' back) : Stops class' (front ++ back) := by
  cases front with
  | nil => exact second
  | cons c rest => exact .cons (first c rfl) _

theorem Stops.front {front back : List Char} (h : Stops class' (front ++ back)) :
    Stops class' front := by
  cases front with
  | nil => exact .nil
  | cons c rest => exact .cons (h c rfl) _

theorem Stops.mono {other : Char → Bool} {text : List Char} (h : Stops class' text)
    (sub : ∀ c, class' c = false → other c = false) : Stops other text :=
  fun c first => sub c (h c first)

theorem stops_dropWhile (text : List Char) : Stops class' (text.dropWhile class') := by
  intro c first
  have law := List.head?_dropWhile_not class' text
  rw [Option.mem_def.mp first] at law
  exact law

theorem Stops.takeWhile_eq {text : List Char} (h : Stops class' text) :
    text.takeWhile class' = [] := by
  cases text with
  | nil => rfl
  | cons c rest => exact List.takeWhile_cons_of_neg (by simp [h c rfl])

theorem Stops.dropWhile_eq {text : List Char} (h : Stops class' text) :
    text.dropWhile class' = text := by
  cases text with
  | nil => rfl
  | cons c rest => exact List.dropWhile_cons_of_neg (by simp [h c rfl])

theorem Stops.takeWhile_append {run text : List Char} (h : Stops class' text)
    (inside : ∀ c ∈ run, class' c = true) : (run ++ text).takeWhile class' = run := by
  rw [List.takeWhile_append_of_pos inside, h.takeWhile_eq, List.append_nil]

theorem Stops.dropWhile_append {run text : List Char} (h : Stops class' text)
    (inside : ∀ c ∈ run, class' c = true) : (run ++ text).dropWhile class' = text := by
  rw [List.dropWhile_append_of_pos inside, h.dropWhile_eq]

end Stops

theorem rounds_taken (step : List Char → Option Nat) (done other : Nat) (text : List Char) :
    (rounds step 0 done text).2 = (rounds step 0 other text).2 := by
  fun_induction rounds step 0 done text generalizing other with
  | case1 done text fails => rw [rounds, fails]
  | case2 done text n taken last =>
    have stop : n = 0 ∨ other + 1 = 0 ∨ text = [] := by simpa using last
    rw [rounds, taken]
    simp only [stop, dite_true]
  | case3 done text n taken more count length next ih =>
    have go : ¬(n = 0 ∨ other + 1 = 0 ∨ text = []) := by simpa using more
    have same := ih (other + 1)
    rw [next] at same
    rw [rounds, taken]
    simp only [go, dite_false, ← same]

theorem le_rounds (step : List Char → Option Nat) (most done : Nat) (text : List Char) :
    done ≤ (rounds step most done text).1 := by
  fun_induction rounds step most done text with
  | case1 done text fails => exact Nat.le_refl _
  | case2 done text n taken last => exact Nat.le_succ _
  | case3 done text n taken more count length next ih =>
    rw [next] at ih
    exact Nat.le_of_succ_le ih

namespace Recognizer

variable {p q : Recognizer} {text front back : List Char}

theorem matchLength_char (test : CharTest) (c : Char) (rest : List Char) :
    (char test).matchLength (c :: rest) = if test.accepts c then some 1 else none := rfl

theorem matchLength_literal (word text : List Char) :
    (literal word).matchLength text =
      if word.isPrefixOf text then some word.length else none := rfl

theorem matchLength_sequence (parts : List Recognizer) (text : List Char) :
    (sequence parts).matchLength text = matchAll parts text := rfl

theorem matchAll_nil (text : List Char) : matchAll [] text = some 0 := rfl

theorem matchAll_cons (p : Recognizer) (parts : List Recognizer) (text : List Char) :
    matchAll (p :: parts) text =
      match p.matchLength text with
      | none => none
      | some n => (matchAll parts (text.drop n)).map (n + ·) := rfl

theorem matchLength_choice (p q : Recognizer) (text : List Char) :
    (choice [p, q]).matchLength text =
      longer (p.matchLength text) (longer (q.matchLength text) none) := rfl

theorem matchLength_repeated (p : Recognizer) (least most : Nat) (text : List Char) :
    (repeated p least most).matchLength text =
      if (rounds (fun rest => p.matchLength rest) most 0 text).1 < least then none
      else some (rounds (fun rest => p.matchLength rest) most 0 text).2 := rfl

theorem split?_append {r : Recognizer} (h : r.split? text = some (front, back)) :
    front ++ back = text := by
  obtain ⟨n, -, taken⟩ := Option.map_eq_some_iff.mp h
  rw [List.splitAt_eq] at taken
  cases taken
  exact List.take_append_drop n text

theorem split?_char (test : CharTest) (text : List Char) :
    (char test).split? text =
      match text with
      | [] => none
      | c :: rest => if test.accepts c then some ([c], rest) else none := by
  cases text with
  | nil => rfl
  | cons c rest =>
    simp only [split?, matchLength_char]
    split <;> simp

theorem split?_literal (word rest : List Char) :
    (literal word).split? (word ++ rest) = some (word, rest) := by
  simp [split?, matchLength_literal]

theorem of_split?_literal {word : List Char} (h : (literal word).split? text = some (front, back)) :
    front = word ∧ text = word ++ back := by
  have whole := split?_append h
  obtain ⟨n, length, taken⟩ := Option.map_eq_some_iff.mp h
  simp only [matchLength_literal, Option.ite_none_right_eq_some, Option.some.injEq] at length
  obtain ⟨starts, rfl⟩ := length
  obtain ⟨rest, rfl⟩ := List.isPrefixOf_iff_prefix.mp starts
  rw [List.splitAt_eq, List.take_left, List.drop_left] at taken
  cases taken
  exact ⟨rfl, rfl⟩

@[simp] theorem split?_sequence_nil (text : List Char) :
    (sequence []).split? text = some ([], text) := by
  simp [split?, matchLength_sequence, matchAll_nil]

theorem of_split?_sequence_nil (h : (sequence []).split? text = some (front, back)) :
    front = [] ∧ text = back := by
  rw [split?_sequence_nil] at h
  cases h
  exact ⟨rfl, rfl⟩

theorem split?_sequence_cons (p : Recognizer) (parts : List Recognizer) (text : List Char) :
    (sequence (p :: parts)).split? text =
      (p.split? text).bind fun (front, rest) =>
        ((sequence parts).split? rest).map fun (more, back) => (front ++ more, back) := by
  simp only [split?, matchLength_sequence, matchAll_cons]
  cases p.matchLength text with
  | none => rfl
  | some n =>
    simp only [Option.map_some, Option.bind_some, List.splitAt_eq]
    cases matchAll parts (text.drop n) with
    | none => rfl
    | some m => simp [List.take_add]

theorem split?_sequence_of {parts : List Recognizer} {more rest : List Char}
    (first : p.split? text = some (front, rest))
    (second : (sequence parts).split? rest = some (more, back)) :
    (sequence (p :: parts)).split? text = some (front ++ more, back) := by
  simp [split?_sequence_cons, first, second]

theorem of_split?_sequence {parts : List Recognizer}
    (h : (sequence (p :: parts)).split? text = some (front, back)) :
    ∃ first more rest, p.split? text = some (first, rest) ∧
      (sequence parts).split? rest = some (more, back) ∧ front = first ++ more := by
  rw [split?_sequence_cons] at h
  obtain ⟨⟨first, rest⟩, one, h⟩ := Option.bind_eq_some_iff.mp h
  obtain ⟨⟨more, left⟩, two, same⟩ := Option.map_eq_some_iff.mp h
  cases same
  exact ⟨first, more, rest, one, two, rfl⟩

theorem split?_choice_left (h : p.split? text = some (front, back))
    (less : ∀ {other rest}, q.split? text = some (other, rest) → other.length ≤ front.length) :
    (choice [p, q]).split? text = some (front, back) := by
  obtain ⟨n, length, taken⟩ := Option.map_eq_some_iff.mp h
  simp only [split?, matchLength_choice, length]
  cases second : q.matchLength text with
  | none => exact congrArg some taken
  | some m =>
    -- The second pattern may match as well, but what it takes is not longer.
    have other : q.split? text = some (text.take m, text.drop m) := by simp [split?, second]
    have shorter := less other
    rw [List.splitAt_eq] at taken
    cases taken
    simp only [List.length_take] at shorter
    simp only [longer, Option.map_some, List.splitAt_eq]
    rcases Nat.le_total m n with le | le
    · rw [Nat.max_eq_left le]
    · rw [Nat.max_eq_right le]
      rcases Nat.eq_or_lt_of_le le with rfl | lt
      · rfl
      · have past : text.length ≤ n := by omega
        rw [List.take_of_length_le past, List.take_of_length_le (Nat.le_trans past le),
          List.drop_of_length_le past, List.drop_of_length_le (Nat.le_trans past le)]

theorem split?_choice_right (q : Recognizer) (h : p.split? text = none) :
    (choice [p, q]).split? text = q.split? text := by
  have fails : p.matchLength text = none := Option.map_eq_none_iff.mp h
  simp only [split?, matchLength_choice, fails]
  cases q.matchLength text <;> rfl

theorem of_split?_choice (h : (choice [p, q]).split? text = some (front, back)) :
    p.split? text = some (front, back) ∨ q.split? text = some (front, back) := by
  simp only [split?, matchLength_choice] at h ⊢
  cases first : p.matchLength text with
  | none => cases second : q.matchLength text <;> simp_all [longer]
  | some n =>
    cases second : q.matchLength text with
    | none => simp_all [longer]
    | some m =>
      rw [first, second] at h
      simp only [longer, Option.map_some] at h ⊢
      rcases Nat.le_total m n with le | le
      · rw [Nat.max_eq_left le] at h
        exact .inl h
      · rw [Nat.max_eq_right le] at h
        exact .inr h

theorem split?_optional (p : Recognizer) (text : List Char) :
    (Recognizer.optional p).split? text = some ((p.split? text).getD ([], text)) := by
  simp only [Recognizer.optional, split?, matchLength_repeated]
  rw [rounds]
  cases p.matchLength text <;> simp

theorem split?_zeroOrMore (p : Recognizer) (text : List Char) :
    (zeroOrMore p).split? text =
      match p.split? text with
      | none => some ([], text)
      | some (front, rest) =>
        if front = [] then some ([], text)
        else ((zeroOrMore p).split? rest).map fun (more, back) => (front ++ more, back) := by
  have whole (text : List Char) : (zeroOrMore p).split? text =
      some (text.splitAt (rounds (fun rest => p.matchLength rest) 0 0 text).2) := by
    simp [zeroOrMore, split?, matchLength_repeated]
  rw [whole]
  cases length : p.matchLength text with
  | none =>
    rw [rounds, length]
    simp [split?, length]
  | some n =>
    have once : p.split? text = some (text.take n, text.drop n) := by simp [split?, length]
    rw [once, rounds, length]
    dsimp only
    by_cases last : n = 0 ∨ text = []
    · rcases last with rfl | rfl <;> simp
    · have go : ¬(n = 0 ∨ 0 + 1 = 0 ∨ text = []) := by simpa using last
      have some' : text.take n ≠ [] := by simpa [List.take_eq_nil_iff] using last
      rw [dif_neg go, if_neg some', whole, rounds_taken _ (0 + 1) 0]
      simp [List.take_add]

theorem split?_oneOrMore (p : Recognizer) (text : List Char) :
    (oneOrMore p).split? text =
      if (p.split? text).isSome then (zeroOrMore p).split? text else none := by
  cases length : p.matchLength text with
  | none =>
    simp only [oneOrMore, zeroOrMore, split?, matchLength_repeated, length]
    rw [rounds, length]
    rfl
  | some n =>
    have counted : ¬(rounds (fun rest => p.matchLength rest) 0 0 text).1 < 1 := by
      rw [rounds, length]
      dsimp only
      split
      · exact Nat.lt_irrefl 1
      · exact Nat.not_lt.mpr (le_rounds _ 0 1 _)
    simp [oneOrMore, zeroOrMore, split?, matchLength_repeated, length, counted]

def TakesOne (p : Recognizer) (class' : Char → Bool) : Prop :=
  ∀ text, p.split? text =
    match text with
    | [] => none
    | c :: rest => if class' c then some ([c], rest) else none

theorem takesOne_char (test : CharTest) : (char test).TakesOne test.accepts := split?_char test

theorem takesOne_literal (c : Char) : (literal [c]).TakesOne (· == c) := by
  intro text
  cases text with
  | nil => rfl
  | cons d rest =>
    by_cases same : d = c
    · simpa [same] using split?_literal [c] rest
    · simp [split?, matchLength_literal, same, Ne.symm same]

section Runs

variable {class' other : Char → Bool}

theorem TakesOne.choice (first : p.TakesOne class') (second : q.TakesOne other) :
    (Recognizer.choice [p, q]).TakesOne fun c => class' c || other c := by
  intro text
  cases taken : p.split? text with
  | none =>
    rw [split?_choice_right q taken, second text]
    rw [first text] at taken
    cases text with
    | nil => rfl
    | cons c rest =>
      have outside : class' c = false := by simpa using taken
      simp [outside]
  | some result =>
    obtain ⟨front, back⟩ := result
    rw [first text] at taken
    cases text with
    | nil => cases taken
    | cons c rest =>
      have inside : class' c = true := by
        cases test : class' c with
        | true => rfl
        | false => simp [test] at taken
      have alone : front = [c] ∧ back = rest := by simpa [inside, eq_comm] using taken
      obtain ⟨rfl, rfl⟩ := alone
      have chosen : (Recognizer.choice [p, q]).split? (c :: back) = some ([c], back) := by
        refine split?_choice_left (by simpa [inside] using first (c :: back)) ?_
        intro more rest again
        rw [second] at again
        cases test : other c with
        | false => simp [test] at again
        | true =>
          have single : [c] = more ∧ back = rest := by simpa [test] using again
          simp [← single.1]
      simp [chosen, inside]

theorem TakesOne.optional (h : p.TakesOne class') (text : List Char) :
    (Recognizer.optional p).split? text =
      match text with
      | [] => some ([], [])
      | c :: rest => if class' c then some ([c], rest) else some ([], c :: rest) := by
  rw [split?_optional, h]
  cases text with
  | nil => rfl
  | cons c rest => cases inside : class' c <;> simp [inside]

theorem TakesOne.zeroOrMore (h : p.TakesOne class') (text : List Char) :
    (Recognizer.zeroOrMore p).split? text =
      some (text.takeWhile class', text.dropWhile class') := by
  induction text with
  | nil =>
    rw [split?_zeroOrMore, h]
    rfl
  | cons c rest ih =>
    rw [split?_zeroOrMore, h]
    cases inside : class' c with
    | false => simp [inside]
    | true => simp [inside, ih]

theorem TakesOne.oneOrMore (h : p.TakesOne class') (text : List Char) :
    (Recognizer.oneOrMore p).split? text =
      if text.takeWhile class' = [] then none
      else some (text.takeWhile class', text.dropWhile class') := by
  rw [split?_oneOrMore, h.zeroOrMore, h]
  cases text with
  | nil => simp
  | cons c rest => cases inside : class' c <;> simp [inside]

end Runs

end Recognizer

end JsonTemplate.Pattern

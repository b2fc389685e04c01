import JsonTemplate.Pattern.Tokens
import JsonTemplate.Proofs.Pattern.Split
import JsonTemplate.Proofs.Text.CharClass

namespace JsonTemplate.Pattern

open JsonTemplate.Text Recognizer

/-- The pattern takes the words of a language, and nothing else. A word is taken where no character
follows that could go on with it. -/
structure Recognizer.Takes (p : Recognizer) (language : List Char → Prop) (goesOn : Char → Bool) :
    Prop where
  sound {text front back : List Char} :
    p.split? text = some (front, back) → language front ∧ Stops goesOn back
  complete {front back : List Char} :
    language front → Stops goesOn back → p.split? (front ++ back) = some (front, back)

def IsRun (class' : Char → Bool) (run : List Char) : Prop := run ≠ [] ∧ ∀ c ∈ run, class' c = true

/-- A letter with word characters after it. -/
def IsWord : List Char → Prop
  | [] => False
  | c :: rest => isLetter c = true ∧ ∀ d ∈ rest, isWordChar d = true

instance (word : List Char) : Decidable (IsWord word) :=
  match word with
  | [] => inferInstanceAs (Decidable False)
  | c :: rest =>
    decidable_of_iff (isLetter c = true ∧ rest.all isWordChar = true)
      (and_congr_right fun _ => List.all_eq_true)

theorem IsWord.isWordChar {word : List Char} (h : IsWord word) :
    ∀ c ∈ word, isWordChar c = true := by
  cases word with
  | nil => cases h
  | cons c rest =>
    intro d member
    rcases List.mem_cons.mp member with rfl | member
    · exact isWordChar_of_isLetter h.1
    · exact h.2 d member

theorem IsWord.ne_nil {word : List Char} (h : IsWord word) : word ≠ [] := by
  cases word with
  | nil => cases h
  | cons => exact List.cons_ne_nil _ _

theorem takes_run {p : Recognizer} {class' : Char → Bool} (h : p.TakesOne class') :
    (oneOrMore p).Takes (IsRun class') class' where
  sound {text front back} taken := by
    rw [h.oneOrMore] at taken
    split at taken
    · cases taken
    · rename_i some'
      cases taken
      exact ⟨⟨some', List.all_eq_true.mp List.all_takeWhile⟩, stops_dropWhile text⟩
  complete {front back} run stop := by
    rw [h.oneOrMore, stop.takeWhile_append run.2, stop.dropWhile_append run.2, if_neg run.1]

theorem Recognizer.Takes.none {p : Recognizer} {class' : Char → Bool} {text : List Char}
    (h : p.Takes (IsRun class') class') (stop : Stops class' text) : p.split? text = none := by
  cases taken : p.split? text with
  | none => rfl
  | some result =>
    obtain ⟨front, back⟩ := result
    obtain ⟨run, inside⟩ := (h.sound taken).1
    cases front with
    | nil => exact absurd rfl run
    | cons c more =>
      have starts := inside c List.mem_cons_self
      rw [stop c (by rw [← split?_append taken]; rfl)] at starts
      cases starts

theorem Recognizer.Takes.whole {p : Recognizer} {language : List Char → Prop} {goesOn : Char → Bool}
    {word : List Char} (h : p.Takes language goesOn) (inside : language word) :
    p.split? word = some (word, []) := by
  have taken := h.complete inside .nil
  rwa [List.append_nil] at taken

def isPathChar (c : Char) : Bool := ['.', '/'].contains c || isWordChar c

/-- What can stand in the arguments of a formatter. -/
def isArgumentChar (c : Char) : Bool := !(['|', '}'].contains c)

theorem takes_whitespace : whitespace.Takes (IsRun isTagSpace) isTagSpace :=
  takes_run (takesOne_char _)

theorem takes_argumentsPattern : argumentsPattern.Takes (IsRun isArgumentChar) isArgumentChar :=
  takes_run (takesOne_char _)

theorem takes_path : path.Takes (IsRun isPathChar) isPathChar :=
  takes_run ((takesOne_char _).choice (takesOne_char _))

theorem takes_digits : digits.Takes (IsRun Char.isDigit) Char.isDigit := by
  have same : (CharTest.classes .digit).accepts = Char.isDigit := funext isMember_digit
  rw [← same]
  exact takes_run (takesOne_char _)

theorem split?_wordPattern (text : List Char) :
    wordPattern.split? text =
      match text with
      | [] => none
      | c :: rest =>
        if isLetter c then some (c :: rest.takeWhile isWordChar, rest.dropWhile isWordChar)
        else none := by
  have letter : (classes (.lowercase ||| .uppercase)).TakesOne isLetter := takesOne_char _
  have more : wordDash.TakesOne isWordChar := takesOne_char _
  rw [wordPattern, split?_sequence_cons, letter]
  cases text with
  | nil => rfl
  | cons c rest =>
    cases starts : isLetter c with
    | false => simp [starts]
    | true => simp [starts, split?_sequence_cons, more.zeroOrMore]

theorem takes_wordPattern : wordPattern.Takes IsWord isWordChar where
  sound {text front back} taken := by
    rw [split?_wordPattern] at taken
    cases text with
    | nil => cases taken
    | cons c rest =>
      cases starts : isLetter c with
      | false => simp [starts] at taken
      | true =>
        simp only [starts, if_true, Option.some.injEq, Prod.mk.injEq] at taken
        obtain ⟨rfl, rfl⟩ := taken
        exact ⟨⟨starts, List.all_eq_true.mp List.all_takeWhile⟩, stops_dropWhile rest⟩
  complete {front back} word stop := by
    cases front with
    | nil => cases word
    | cons c rest =>
      rw [split?_wordPattern]
      simp only [List.cons_append, word.1, if_true, stop.takeWhile_append word.2,
        stop.dropWhile_append word.2]

theorem takes_localVariable :
    localVariable.Takes (fun name => ∃ word, IsWord word ∧ name = '@' :: word) isWordChar where
  sound {text front back} taken := by
    obtain ⟨sign, more, rest, first, second, rfl⟩ := of_split?_sequence taken
    obtain ⟨word, none, left, third, last, rfl⟩ := of_split?_sequence second
    obtain ⟨rfl, -⟩ := of_split?_literal first
    obtain ⟨rfl, rfl⟩ := of_split?_sequence_nil last
    obtain ⟨isWord, stop⟩ := takes_wordPattern.sound third
    exact ⟨⟨word, isWord, by simp⟩, stop⟩
  complete {front back} name stop := by
    obtain ⟨word, isWord, rfl⟩ := name
    have named := takes_wordPattern.complete isWord stop
    exact split?_sequence_of (split?_literal ['@'] (word ++ back))
      (by simpa using split?_sequence_of named (split?_sequence_nil back))

theorem takes_predicateName :
    predicateName.Takes (fun name => ∃ word, IsWord word ∧ name = word ++ ['?'])
      fun _ => false where
  sound {text front back} taken := by
    obtain ⟨word, more, rest, first, second, rfl⟩ := of_split?_sequence taken
    obtain ⟨sign, none, left, third, last, rfl⟩ := of_split?_sequence second
    obtain ⟨rfl, -⟩ := of_split?_literal third
    obtain ⟨rfl, -⟩ := of_split?_sequence_nil last
    exact ⟨⟨word, (takes_wordPattern.sound first).1, rfl⟩, fun _ _ => rfl⟩
  complete {front back} name _ := by
    obtain ⟨word, isWord, rfl⟩ := name
    have named := takes_wordPattern.complete isWord (.cons (c := '?') (by decide) back)
    have sign := split?_sequence_of (split?_literal ['?'] back) (split?_sequence_nil back)
    rw [List.append_assoc]
    exact split?_sequence_of named sign

def isKeywordChar (c : Char) : Bool := isWordChar c || c == '?'

theorem takesOne_mark : (Recognizer.text "?").TakesOne (· == '?') := takesOne_literal '?'

theorem of_split?_keyword {text front back : List Char}
    (taken : keyword.split? text = some (front, back)) :
    ∃ word, IsWord word ∧
      (front = '.' :: word ++ ['?'] ∨ front = '.' :: word ∧ Stops isKeywordChar back) := by
  obtain ⟨point, more, rest, first, second, rfl⟩ := of_split?_sequence taken
  obtain ⟨word, sign, left, third, fourth, rfl⟩ := of_split?_sequence second
  obtain ⟨mark, none, last, optional, done, rfl⟩ := of_split?_sequence fourth
  obtain ⟨rfl, -⟩ := of_split?_literal first
  obtain ⟨isWord, stop⟩ := takes_wordPattern.sound third
  obtain ⟨rfl, rfl⟩ := of_split?_sequence_nil done
  refine ⟨word, isWord, ?_⟩
  rw [takesOne_mark.optional] at optional
  cases left with
  | nil =>
    cases optional
    exact .inr ⟨by simp, .nil⟩
  | cons c rest =>
    cases sign : c == '?' with
    | true =>
      simp only [sign, if_true, Option.some.injEq, Prod.mk.injEq] at optional
      rw [← optional.1, beq_iff_eq.mp sign]
      exact .inl (by simp)
    | false =>
      simp only [sign, Bool.false_eq_true, if_false, Option.some.injEq, Prod.mk.injEq] at optional
      rw [← optional.1, ← optional.2]
      exact .inr ⟨by simp, .cons (by simp [isKeywordChar, stop c rfl, sign]) rest⟩

theorem split?_keyword_none {text : List Char} (stop : Stops (· == '.') text) :
    keyword.split? text = none := by
  cases taken : keyword.split? text with
  | none => rfl
  | some result =>
    obtain ⟨front, back⟩ := result
    obtain ⟨word, -, shape⟩ := of_split?_keyword taken
    have starts : text.head? = some '.' := by
      rw [← split?_append taken]
      rcases shape with rfl | ⟨rfl, -⟩ <;> rfl
    cases stop '.' starts

theorem split?_keyword {word back : List Char} (isWord : IsWord word)
    (stop : Stops isKeywordChar back) :
    keyword.split? ('.' :: word ++ back) = some ('.' :: word, back) := by
  have outside : Stops isWordChar back := stop.mono fun c h => (Bool.or_eq_false_iff.mp h).1
  have named := takes_wordPattern.complete isWord outside
  have unmarked : (Recognizer.optional (Recognizer.text "?")).split? back = some ([], back) := by
    rw [takesOne_mark.optional]
    cases back with
    | nil => rfl
    | cons c rest =>
      have other := (Bool.or_eq_false_iff.mp (stop c rfl)).2
      simp only [other, Bool.false_eq_true, if_false]
  have tail := split?_sequence_of named (split?_sequence_of unmarked (split?_sequence_nil back))
  rw [List.append_nil, List.append_nil] at tail
  exact split?_sequence_of (split?_literal ['.'] (word ++ back)) tail

theorem split?_keyword_mark {word : List Char} (isWord : IsWord word) (back : List Char) :
    keyword.split? ('.' :: word ++ '?' :: back) = some ('.' :: word ++ ['?'], back) := by
  have named := takes_wordPattern.complete isWord (.cons (c := '?') (by decide) back)
  have marked : (Recognizer.optional (Recognizer.text "?")).split? ('?' :: back) =
      some (['?'], back) := by
    rw [takesOne_mark.optional]
    rfl
  have tail := split?_sequence_of named (split?_sequence_of marked (split?_sequence_nil back))
  have whole := split?_sequence_of (split?_literal ['.'] (word ++ '?' :: back)) tail
  exact whole

end JsonTemplate.Pattern

import JsonTemplate.Proofs.Pattern.Longest
import JsonTemplate.Proofs.Pattern.Window
import JsonTemplate.Proofs.Pattern.Words
import Mathlib.Order.Bounds.Basic

namespace JsonTemplate.Pattern

open JsonTemplate.Text Recognizer Computability

def exactly (word : String) : Language Char := {word.toList}

def wordClass (c : Char) : Bool := c.isAlpha || c.isDigit || c == '_' || c == '-'

def words : Language Char := single Char.isAlpha * (single wordClass)∗

def wordsOrNumbers : Language Char := words + plus (single Char.isDigit)

def dottedWords : Language Char := wordsOrNumbers * (exactly "." * wordsOrNumbers)∗

def spaces : Language Char := (single isTagSpace)∗

inductive TagPattern where
  | arguments
  | predicateArguments
  | booleanOperator
  | word
  | keyword
  | localVariable
  | path
  | predicateName
  | variableName
  | variablesDelimiter
  | whitespace

namespace TagPattern

def recognizer : TagPattern → Recognizer
  | arguments => argumentsPattern
  | predicateArguments => Pattern.predicateArguments
  | booleanOperator => Pattern.booleanOperator
  | word => wordPattern
  | keyword => Pattern.keyword
  | localVariable => Pattern.localVariable
  | path => Pattern.path
  | predicateName => Pattern.predicateName
  | variableName => Pattern.variableName
  | variablesDelimiter => Pattern.variablesDelimiter
  | whitespace => Pattern.whitespace

/-- The language of a pattern as the grammar of tags gives it. -/
def language : TagPattern → Language Char
  | arguments => plus (single fun c => c ≠ '|' ∧ c ≠ '}')
  | predicateArguments => plus (single fun c => c ≠ '}')
  | booleanOperator => exactly "&&" + exactly "||"
  | word => words
  | keyword => exactly "." * (words * (1 + exactly "?"))
  | localVariable => exactly "@" * words
  | path => plus (single fun c => c = '.' ∨ c = '/' ∨ wordClass c)
  | predicateName => words * exactly "?"
  | variableName => (exactly "@")∗ * dottedWords + exactly "@"
  | variablesDelimiter => spaces * (exactly "," * spaces)
  | whitespace => plus (single isTagSpace)

end TagPattern

section Parts

variable {p : Recognizer} {class' : Char → Bool}

theorem longest_exactly (word : String) : (Recognizer.text word).TakesLongest (exactly word) :=
  longest_literal word.toList

theorem nil_notMem_exactly {word : String} (some' : word.toList ≠ []) : [] ∉ exactly word :=
  fun none => some' (Eq.symm none)

theorem longest_class {test : CharTest} (same : ∀ c, test.accepts c = class' c) :
    (char test).TakesLongest (single class') := by
  rw [← funext same]
  exact (takesOne_char test).longest

theorem longest_run (h : p.TakesLongest (single class')) :
    (oneOrMore p).TakesLongest (plus (single class')) :=
  h.oneOrMore (nil_notMem_single class') (goesOn_single class') avoids_none

theorem longest_runs (h : p.TakesLongest (single class')) :
    (zeroOrMore p).TakesLongest (single class')∗ :=
  h.zeroOrMore (nil_notMem_single class') (goesOn_single class') avoids_none

end Parts

theorem longest_letter : (classes (.lowercase ||| .uppercase)).TakesLongest (single Char.isAlpha) :=
  longest_class isLetter_eq

theorem longest_wordDash : wordDash.TakesLongest (single wordClass) := longest_class isWordChar_eq

theorem longest_wordPattern : wordPattern.TakesLongest words :=
  longest_letter.sequence_cons (longest_runs longest_wordDash).last (goesOn_single _) avoids_none

theorem longest_wordOrDigits : wordOrDigits.TakesLongest wordsOrNumbers :=
  longest_wordPattern.choice (longest_run (longest_class isMember_digit))

theorem madeOf_words : MadeOf wordClass words := by
  have letter : MadeOf wordClass (single Char.isAlpha) :=
    madeOf_single fun c letter => by rw [wordClass, letter]; rfl
  exact letter.mul (madeOf_single fun _ inside => inside).kstar

theorem madeOf_wordsOrNumbers : MadeOf wordClass wordsOrNumbers := by
  have digit : MadeOf wordClass (single Char.isDigit) :=
    madeOf_single fun c digit => by rw [wordClass, digit, Bool.or_true]; rfl
  exact madeOf_words.add (digit.mul digit.kstar)

theorem nil_notMem_wordsOrNumbers : [] ∉ wordsOrNumbers := by
  rw [wordsOrNumbers, Language.mem_add, not_or]
  exact ⟨nil_notMem_mul (nil_notMem_single _), nil_notMem_mul (nil_notMem_single _)⟩

theorem longest_dotWord : dotWord.TakesLongest dottedWords := by
  have point : (sequence [Recognizer.text ".", wordOrDigits]).TakesLongest
      (exactly "." * wordsOrNumbers) :=
    (longest_exactly ".").sequence_cons longest_wordOrDigits.last (goesOn_word _) avoids_none
  have on : GoesOn wordClass (exactly "." * wordsOrNumbers) :=
    madeOf_wordsOrNumbers.goesOn.word_mul _
  have full : [] ∉ exactly "." := nil_notMem_exactly (List.cons_ne_nil _ _)
  have stop : Avoids wordClass (exactly "." * wordsOrNumbers) :=
    (avoids_word (.cons (by decide) [])).mul_of_full full
  have points := point.zeroOrMore (nil_notMem_mul full) on stop
  exact longest_wordOrDigits.sequence_cons points.last madeOf_wordsOrNumbers.goesOn stop.kstar

theorem longest_variableName :
    variableName.TakesLongest ((exactly "@")∗ * dottedWords + exactly "@") := by
  have full : [] ∉ exactly "@" := nil_notMem_exactly (List.cons_ne_nil _ _)
  have signs : (zeroOrMore (Recognizer.text "@")).TakesLongest (exactly "@")∗ :=
    (longest_exactly "@").zeroOrMore full (goesOn_word _) avoids_none
  have sign : MadeOf (· == '@') (exactly "@") := by
    rintro _ rfl c member
    cases List.mem_singleton.mp (show c ∈ ['@'] from member)
    rfl
  have apart (c : Char) (inside : wordClass c = true) : (c == '@') = false := by
    rw [beq_eq_false_iff_ne]
    rintro rfl
    exact absurd inside (by decide)
  have stop : Avoids (· == '@') dottedWords :=
    (madeOf_wordsOrNumbers.avoids apart).mul_of_full nil_notMem_wordsOrNumbers
  exact (signs.sequence_cons longest_dotWord.last sign.kstar.goesOn stop).choice
    (longest_exactly "@")

theorem longest_keyword : keyword.TakesLongest (exactly "." * (words * (1 + exactly "?"))) := by
  have mark := (longest_exactly "?").optional.last
  have stop : Avoids wordClass (1 + exactly "?") :=
    avoids_one.add (avoids_word (.cons (by decide) []))
  exact (longest_exactly ".").sequence_cons
    (longest_wordPattern.sequence_cons mark madeOf_words.goesOn stop) (goesOn_word _) avoids_none

theorem longest_predicateName : predicateName.TakesLongest (words * exactly "?") :=
  longest_wordPattern.sequence_cons (longest_exactly "?").last madeOf_words.goesOn
    (avoids_word (.cons (by decide) []))

theorem longest_localVariable : localVariable.TakesLongest (exactly "@" * words) :=
  (longest_exactly "@").sequence_cons longest_wordPattern.last (goesOn_word _) avoids_none

theorem longest_variablesDelimiter :
    variablesDelimiter.TakesLongest (spaces * (exactly "," * spaces)) := by
  have space : tagSpace.TakesLongest (single isTagSpace) := longest_class fun _ => rfl
  have around := longest_runs space
  have full : [] ∉ exactly "," := nil_notMem_exactly (List.cons_ne_nil _ _)
  have stop : Avoids isTagSpace (exactly "," * spaces) :=
    (avoids_word (.cons (by decide) [])).mul_of_full full
  have onlySpaces : MadeOf isTagSpace spaces := (madeOf_single fun _ inside => inside).kstar
  exact around.sequence_cons
    ((longest_exactly ",").sequence_cons around.last (goesOn_word _) avoids_none)
    onlySpaces.goesOn stop

theorem longest_path :
    path.TakesLongest (plus (single fun c => c = '.' ∨ c = '/' ∨ wordClass c)) := by
  have one := (takesOne_char (.oneOf "./".toList)).choice (takesOne_char (.classes .wordDash))
  have same : (fun c => (CharTest.oneOf "./".toList).accepts c ||
      (CharTest.classes .wordDash).accepts c) = fun c => c = '.' ∨ c = '/' ∨ wordClass c := by
    funext c
    have word : (CharTest.classes .wordDash).accepts c = wordClass c := isWordChar_eq c
    rw [word]
    simp [CharTest.accepts, Bool.or_assoc]
  rw [same] at one
  exact longest_run one.longest

theorem TagPattern.longest (t : TagPattern) : t.recognizer.TakesLongest t.language := by
  cases t with
  | arguments => exact longest_run (longest_class fun c => by simp [CharTest.accepts])
  | predicateArguments => exact longest_run (longest_class fun c => by simp [CharTest.accepts])
  | booleanOperator => exact (longest_exactly "&&").choice (longest_exactly "||")
  | word => exact longest_wordPattern
  | keyword => exact longest_keyword
  | localVariable => exact longest_localVariable
  | path => exact longest_path
  | predicateName => exact longest_predicateName
  | variableName => exact longest_variableName
  | variablesDelimiter => exact longest_variablesDelimiter
  | whitespace => exact longest_run (longest_class fun c => rfl)

/-- The places in a window where a word of a language can stop that starts with the window. -/
def wordEnds (language : Language Char) (text : List Char) (start stop : Nat) : Set Nat :=
  {place | start ≤ place ∧ place ≤ stop ∧ isBoundary text place = true ∧
    slice text start place ∈ language}

theorem mem_wordEnds {language : Language Char} {before window after : List Char} {place : Nat} :
    place ∈ wordEnds language (before ++ (window ++ after)) (byteLength before)
        (byteLength (before ++ window)) ↔
      ∃ word, word <+: window ∧ word ∈ language ∧ place = byteLength before + byteLength word := by
  constructor
  · rintro ⟨first, last, boundary, inside⟩
    obtain ⟨word, front, rfl⟩ := exists_front first last boundary
    rw [slice_front front] at inside
    exact ⟨word, front, inside, rfl⟩
  · rintro ⟨word, front, inside, rfl⟩
    have length := byteLength_front_le front
    refine ⟨Nat.le_add_right _ _, ?_, isBoundary_front front, ?_⟩
    · rw [byteLength_append]
      omega
    · rwa [slice_front front]

theorem Recognizer.TakesLongest.matchAt {p : Recognizer} {language : Language Char}
    (h : p.TakesLongest language) {text : List Char} {start stop : Nat} (order : start ≤ stop)
    (first : isBoundary text start = true) (last : isBoundary text stop = true) :
    (∀ place, p.matchAt text start stop = some place ↔
      IsGreatest (wordEnds language text start stop) place) ∧
    (p.matchAt text start stop = none ↔ wordEnds language text start stop = ∅) := by
  obtain ⟨before, window, after, rfl, rfl, rfl⟩ := exists_window order first last
  have taken {word : List Char} (front : word <+: window) (inside : word ∈ language) :
      ∃ more rest, p.split? window = some (word ++ more, rest) := by
    obtain ⟨back, rfl⟩ := front
    exact h.reaches back inside
  rw [matchAt_window]
  cases found : p.split? window with
  | none =>
    have empty : wordEnds language (before ++ (window ++ after)) (byteLength before)
        (byteLength (before ++ window)) = ∅ := by
      refine Set.eq_empty_iff_forall_notMem.mpr fun place member => ?_
      obtain ⟨word, front, inside, -⟩ := mem_wordEnds.mp member
      obtain ⟨more, rest, other⟩ := taken front inside
      cases found.symm.trans other
    rw [empty, Option.map_none]
    exact ⟨fun place => ⟨nofun, fun greatest => absurd greatest.1 (Set.notMem_empty place)⟩,
      fun _ => rfl, fun _ => rfl⟩
  | some result =>
    obtain ⟨word, rest⟩ := result
    have greatest : IsGreatest (wordEnds language (before ++ (window ++ after)) (byteLength before)
        (byteLength (before ++ window))) (byteLength before + byteLength word) := by
      refine ⟨mem_wordEnds.mpr ⟨word, ⟨rest, split?_append found⟩, h.sound found, rfl⟩, ?_⟩
      intro place member
      obtain ⟨other, front, inside, rfl⟩ := mem_wordEnds.mp member
      obtain ⟨more, left, same⟩ := taken front inside
      cases found.symm.trans same
      exact Nat.add_le_add_left (byteLength_front_le (List.prefix_append other more)) _
    simp only [Option.map_some, Option.some.injEq, reduceCtorEq, false_iff]
    refine ⟨fun place => ⟨fun same => same ▸ greatest, greatest.unique⟩, fun empty => ?_⟩
    rw [empty] at greatest
    exact Set.notMem_empty _ greatest.1

/-- The patterns of a tag match to the end of the longest word of their grammar, and where no word
stands in front they do not match. -/
theorem TagPattern.match_longest_word (t : TagPattern) {text : List Char} {start stop : Nat}
    (order : start ≤ stop) (first : isBoundary text start = true)
    (last : isBoundary text stop = true) :
    (∀ place, t.recognizer.matchAt text start stop = some place ↔
      IsGreatest (wordEnds t.language text start stop) place) ∧
    (t.recognizer.matchAt text start stop = none ↔ wordEnds t.language text start stop = ∅) :=
  t.longest.matchAt order first last

/-- Of a name with signs in front the point and the dash at its end stay behind. -/
theorem TagPattern.match_longest_word_signs :
    2 ≤ 9 ∧ isBoundary "é@@a.0.-b".toList 2 = true ∧ isBoundary "é@@a.0.-b".toList 9 = true ∧
      IsGreatest (wordEnds TagPattern.variableName.language "é@@a.0.-b".toList 2 9) 7 := by
  have found : TagPattern.variableName.recognizer.matchAt "é@@a.0.-b".toList 2 9 = some 7 := by
    decide +kernel
  exact ⟨by decide, by decide, by decide,
    ((TagPattern.variableName.match_longest_word (by decide) (by decide) (by decide)).1 7).mp
      found⟩

end JsonTemplate.Pattern

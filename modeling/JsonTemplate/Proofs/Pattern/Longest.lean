import JsonTemplate.Proofs.Pattern.Split
import Mathlib.Computability.Language

namespace JsonTemplate.Pattern

open Computability

/-- The words of one character of a class. -/
def single (class' : Char → Bool) : Language Char :=
  {word : List Char | ∃ c, class' c = true ∧ word = [c]}

def plus (language : Language Char) : Language Char := language * language∗

def MadeOf (class' : Char → Bool) (language : Language Char) : Prop :=
  ∀ word ∈ language, ∀ c ∈ word, class' c = true

def Avoids (class' : Char → Bool) (language : Language Char) : Prop :=
  ∀ word ∈ language, Stops class' word

def GoesOn (class' : Char → Bool) (language : Language Char) : Prop :=
  ∀ front c rest, front ∈ language → front ++ c :: rest ∈ language → class' c = true

section Languages

variable {class' : Char → Bool} {l m : Language Char}

theorem madeOf_single {other : Char → Bool} (sub : ∀ c, other c = true → class' c = true) :
    MadeOf class' (single other) := by
  rintro _ ⟨c, inside, rfl⟩ d member
  rw [List.mem_singleton.mp member]
  exact sub c inside

theorem MadeOf.mul (first : MadeOf class' l) (second : MadeOf class' m) :
    MadeOf class' (l * m) := by
  intro word inside c member
  obtain ⟨front, one, back, two, rfl⟩ := Language.mem_mul.mp inside
  rcases List.mem_append.mp member with member | member
  · exact first front one c member
  · exact second back two c member

theorem MadeOf.add (first : MadeOf class' l) (second : MadeOf class' m) :
    MadeOf class' (l + m) := by
  intro word inside
  rcases (Language.mem_add l m word).mp inside with one | two
  · exact first word one
  · exact second word two

theorem MadeOf.kstar (h : MadeOf class' l) : MadeOf class' l∗ := by
  intro word inside c member
  obtain ⟨words, rfl, all⟩ := Language.mem_kstar.mp inside
  obtain ⟨part, one, member⟩ := List.mem_flatten.mp member
  exact h part (all part one) c member

theorem MadeOf.goesOn (h : MadeOf class' l) : GoesOn class' l := by
  intro front c rest _ longer
  exact h _ longer c (List.mem_append_right front List.mem_cons_self)

theorem avoids_word {word : List Char} (stop : Stops class' word) :
    Avoids class' ({word} : Language Char) := by
  intro other same
  rwa [show other = word from same]

theorem avoids_one : Avoids class' 1 := by
  intro word none
  rw [(Language.mem_one word).mp none]
  exact .nil

theorem Avoids.mul_of_full (first : Avoids class' l) (full : [] ∉ l) : Avoids class' (l * m) := by
  intro word inside
  obtain ⟨front, one, back, -, rfl⟩ := Language.mem_mul.mp inside
  cases front with
  | nil => exact absurd one full
  | cons c rest => exact .cons (first _ one c rfl) _

theorem MadeOf.avoids {other : Char → Bool} (h : MadeOf class' l)
    (apart : ∀ c, class' c = true → other c = false) : Avoids other l := by
  intro word inside c first
  exact apart c (h word inside c (List.mem_of_mem_head? first))

theorem nil_notMem_single (class' : Char → Bool) : [] ∉ single class' := by
  rintro ⟨c, -, none⟩
  cases none

theorem nil_notMem_mul (full : [] ∉ l) : [] ∉ l * m := by
  intro inside
  obtain ⟨front, one, back, -, none⟩ := Language.mem_mul.mp inside
  rw [(List.append_eq_nil_iff.mp none).1] at one
  exact full one

theorem Avoids.add (first : Avoids class' l) (second : Avoids class' m) :
    Avoids class' (l + m) := by
  intro word inside
  rcases (Language.mem_add l m word).mp inside with one | two
  · exact first word one
  · exact second word two

theorem Avoids.kstar (h : Avoids class' l) : Avoids class' l∗ := by
  intro word inside
  obtain ⟨words, rfl, all⟩ := Language.mem_kstar.mp inside
  clear inside
  induction words with
  | nil => exact .nil
  | cons first words ih =>
    rw [List.flatten_cons]
    exact (h first (all first List.mem_cons_self)).append
      (ih fun word member => all word (List.mem_cons_of_mem _ member))

theorem goesOn_of_length {n : Nat} (h : ∀ word ∈ l, word.length = n) :
    GoesOn (fun _ => false) l := by
  intro front c rest shorter longer
  have one := h _ shorter
  have two := h _ longer
  rw [List.length_append, List.length_cons] at two
  omega

theorem goesOn_single (class' : Char → Bool) : GoesOn (fun _ => false) (single class') := by
  refine goesOn_of_length (n := 1) ?_
  rintro _ ⟨c, -, rfl⟩
  rfl

theorem goesOn_word (word : List Char) : GoesOn (fun _ => false) ({word} : Language Char) :=
  goesOn_of_length fun other same => by rw [show other = word from same]

theorem avoids_none : Avoids (fun _ => false) l := fun _ _ _ _ => rfl

theorem GoesOn.word_mul (h : GoesOn class' m) (word : List Char) :
    GoesOn class' (({word} : Language Char) * m) := by
  intro front c rest shorter longer
  obtain ⟨start, here, back, one, rfl⟩ := Language.mem_mul.mp shorter
  obtain ⟨again, there, other, two, whole⟩ := Language.mem_mul.mp longer
  rw [show start = word from here, show again = word from there, List.append_assoc] at whole
  rw [List.append_cancel_left whole] at two
  exact h back c rest one two

theorem append_mem_kstar {front back : List Char} (first : front ∈ l) (later : back ∈ l∗) :
    front ++ back ∈ l∗ :=
  mul_kstar_le_kstar (a := l) (Language.append_mem_mul first later)

end Languages

namespace Recognizer

/-- The pattern takes the longest word of a language off the front of a text: it takes words only,
and where a word stands in front it takes that one or a longer one. -/
structure TakesLongest (p : Recognizer) (language : Language Char) : Prop where
  sound {text front back : List Char} :
    p.split? text = some (front, back) → front ∈ language
  reaches {front : List Char} (back : List Char) :
    front ∈ language → ∃ more rest, p.split? (front ++ back) = some (front ++ more, rest)

variable {p q : Recognizer} {l m : Language Char} {class' : Char → Bool}

theorem TakesOne.longest (h : p.TakesOne class') : p.TakesLongest (single class') where
  sound {text front back} taken := by
    rw [h] at taken
    cases text with
    | nil => cases taken
    | cons c rest =>
      dsimp only at taken
      split at taken
      · rename_i inside
        cases taken
        exact ⟨c, inside, rfl⟩
      · cases taken
  reaches {front} back inside := by
    obtain ⟨c, member, rfl⟩ := inside
    refine ⟨[], back, ?_⟩
    rw [h, List.append_nil]
    exact if_pos member

theorem longest_literal (word : List Char) : (literal word).TakesLongest {word} where
  sound taken := (of_split?_literal taken).1
  reaches {front} back inside := by
    rw [show front = word from inside]
    exact ⟨[], back, by rw [List.append_nil, split?_literal]⟩

theorem longest_sequence_nil : (sequence []).TakesLongest 1 where
  sound taken := (Language.mem_one _).mpr (of_split?_sequence_nil taken).1
  reaches {front} back inside := by
    rw [(Language.mem_one front).mp inside]
    exact ⟨[], back, split?_sequence_nil back⟩

theorem TakesLongest.hands_over (h : p.TakesLongest l) (on : GoesOn class' l)
    {front next : List Char} (inside : front ∈ l) (stop : Stops class' next) (back : List Char) :
    ∃ more rest, p.split? (front ++ (next ++ back)) = some (front ++ more, rest) ∧
      (more = [] ∧ rest = next ++ back ∨ next = []) := by
  obtain ⟨more, rest, taken⟩ := h.reaches (next ++ back) inside
  have whole := split?_append taken
  rw [List.append_assoc] at whole
  have after := List.append_cancel_left whole
  refine ⟨more, rest, taken, ?_⟩
  cases more with
  | nil => exact .inl ⟨rfl, after⟩
  | cons c more =>
    cases next with
    | nil => exact .inr rfl
    | cons d next =>
      have same : c = d := (List.cons.inj after).1
      have outside := stop d rfl
      rw [← same, on front c more inside (h.sound taken)] at outside
      cases outside

theorem TakesLongest.sequence_cons {parts : List Recognizer} (first : p.TakesLongest l)
    (second : (sequence parts).TakesLongest m) (on : GoesOn class' l) (stop : Avoids class' m) :
    (sequence (p :: parts)).TakesLongest (l * m) where
  sound taken := by
    obtain ⟨front, more, rest, one, two, rfl⟩ := of_split?_sequence taken
    exact Language.append_mem_mul (first.sound one) (second.sound two)
  reaches {word} back inside := by
    obtain ⟨front, one, next, two, rfl⟩ := Language.mem_mul.mp inside
    rw [List.append_assoc]
    obtain ⟨more, rest, taken, ⟨rfl, rfl⟩ | rfl⟩ := first.hands_over on one (stop next two) back
    · obtain ⟨further, left, later⟩ := second.reaches back two
      refine ⟨further, left, ?_⟩
      rw [split?_sequence_of taken later, List.append_nil, List.append_assoc]
    · obtain ⟨further, left, later⟩ := second.reaches rest two
      refine ⟨more ++ further, left, ?_⟩
      rw [split?_sequence_of taken later, List.append_nil, List.nil_append, List.append_assoc]

theorem TakesLongest.last (h : q.TakesLongest m) : (sequence [q]).TakesLongest m := by
  have on : GoesOn (fun _ => true) m := fun _ _ _ _ _ => rfl
  have whole := h.sequence_cons longest_sequence_nil on avoids_one
  rwa [mul_one] at whole

theorem TakesLongest.reaches_of_le {r : Recognizer} (h : p.TakesLongest l)
    (further : ∀ text k, p.matchLength text = some k → ∃ n, r.matchLength text = some n ∧ k ≤ n)
    {front : List Char} (back : List Char) (inside : front ∈ l) :
    ∃ more rest, r.split? (front ++ back) = some (front ++ more, rest) := by
  obtain ⟨more, rest, taken⟩ := h.reaches back inside
  obtain ⟨k, one, parts⟩ := Option.map_eq_some_iff.mp taken
  obtain ⟨n, other, le⟩ := further _ k one
  obtain ⟨d, rfl⟩ := Nat.exists_eq_add_of_le le
  rw [List.splitAt_eq, Prod.mk.injEq] at parts
  refine ⟨more ++ ((front ++ back).drop k).take d, (front ++ back).drop (k + d), ?_⟩
  rw [split?, other, Option.map_some, List.splitAt_eq, List.take_add, parts.1, List.append_assoc]

theorem TakesLongest.choice (first : p.TakesLongest l) (second : q.TakesLongest m) :
    (choice [p, q]).TakesLongest (l + m) where
  sound {text front back} taken := by
    rw [Language.mem_add]
    rcases of_split?_choice taken with one | two
    · exact .inl (first.sound one)
    · exact .inr (second.sound two)
  reaches {word} back inside := by
    rcases (Language.mem_add l m word).mp inside with one | two
    · refine first.reaches_of_le (fun text k length => ?_) back one
      rw [matchLength_choice, length]
      cases q.matchLength text with
      | none => exact ⟨k, rfl, Nat.le_refl k⟩
      | some n => exact ⟨max k n, rfl, Nat.le_max_left k n⟩
    · refine second.reaches_of_le (fun text k length => ?_) back two
      rw [matchLength_choice, length]
      cases p.matchLength text with
      | none => exact ⟨k, rfl, Nat.le_refl k⟩
      | some n => exact ⟨max n k, rfl, Nat.le_max_right n k⟩

theorem TakesLongest.optional (h : p.TakesLongest l) :
    (Recognizer.optional p).TakesLongest (1 + l) where
  sound {text front back} taken := by
    rw [split?_optional, Option.some.injEq] at taken
    rw [Language.mem_add]
    cases one : p.split? text with
    | none =>
      rw [one] at taken
      cases taken
      exact .inl (Language.nil_mem_one)
    | some result =>
      rw [one] at taken
      cases taken
      exact .inr (h.sound one)
  reaches {front} back inside := by
    rcases (Language.mem_add 1 l front).mp inside with none | one
    · rw [(Language.mem_one front).mp none, split?_optional]
      exact ⟨_, _, rfl⟩
    · obtain ⟨more, rest, taken⟩ := h.reaches back one
      exact ⟨more, rest, by rw [split?_optional, taken, Option.getD_some]⟩

theorem exists_split?_zeroOrMore (p : Recognizer) (text : List Char) :
    ∃ front back, (zeroOrMore p).split? text = some (front, back) := by
  rw [Recognizer.zeroOrMore, split?, matchLength_repeated, if_neg (Nat.not_lt_zero _)]
  exact ⟨_, _, rfl⟩

section Repetition

variable (h : p.TakesLongest l) (some' : [] ∉ l) (on : GoesOn class' l) (stop : Avoids class' l)
include h some' on stop

theorem TakesLongest.zeroOrMore : (Recognizer.zeroOrMore p).TakesLongest l∗ where
  sound {text front back} taken := by
    generalize size : text.length = n at *
    -- A repetition is no recursion on the text, so the induction is on its length.
    induction n using Nat.strongRecOn generalizing text front with
    | ind n ih =>
      rw [split?_zeroOrMore] at taken
      cases one : p.split? text with
      | none =>
        rw [one] at taken
        cases taken
        exact Language.nil_mem_kstar l
      | some result =>
        obtain ⟨first, rest⟩ := result
        have word := h.sound one
        have full : first ≠ [] := fun none => some' (none ▸ word)
        rw [one] at taken
        simp only [full, if_false] at taken
        obtain ⟨⟨more, last⟩, later, same⟩ := Option.map_eq_some_iff.mp taken
        cases same
        have shorter : rest.length < n := by
          have positive := List.length_pos_iff.mpr full
          rw [← size, ← split?_append one, List.length_append]
          omega
        exact append_mem_kstar word (ih _ shorter later rfl)
  reaches {word} back inside := by
    obtain ⟨words, rfl, all⟩ := Language.mem_kstar.mp inside
    clear inside
    induction words with
    | nil => exact exists_split?_zeroOrMore p back
    | cons first words ih =>
      have one := all first List.mem_cons_self
      have others := fun word member => all word (List.mem_cons_of_mem first member)
      have next : Stops class' words.flatten := stop.kstar _ (Language.join_mem_kstar others)
      obtain ⟨more, rest, taken, shape⟩ := h.hands_over on one next back
      have full : first ++ more ≠ [] := fun none => some' (none ▸ h.sound taken)
      have goes {more' left : List Char}
          (later : (Recognizer.zeroOrMore p).split? rest = some (more', left)) :
          (Recognizer.zeroOrMore p).split? (first ++ (words.flatten ++ back)) =
            some (first ++ more ++ more', left) := by
        rw [split?_zeroOrMore, taken]
        simp only [full, if_false, later, Option.map_some]
      rw [List.flatten_cons, List.append_assoc]
      rcases shape with ⟨rfl, rfl⟩ | none
      · obtain ⟨further, left, later⟩ := ih others
        exact ⟨further, left, by rw [goes later, List.append_nil, List.append_assoc]⟩
      · obtain ⟨further, left, later⟩ := exists_split?_zeroOrMore p rest
        refine ⟨more ++ further, left, ?_⟩
        rw [goes later, none, List.append_nil, List.append_assoc]

theorem TakesLongest.oneOrMore : (Recognizer.oneOrMore p).TakesLongest (plus l) := by
  have once (text : List Char) : (Recognizer.oneOrMore p).split? text =
      (sequence [p, Recognizer.zeroOrMore p]).split? text := by
    rw [split?_oneOrMore, split?_zeroOrMore, split?_sequence_cons]
    cases one : p.split? text with
    | none => rfl
    | some result =>
      obtain ⟨first, rest⟩ := result
      have full : first ≠ [] := fun none => some' (none ▸ h.sound one)
      obtain ⟨front, back, later⟩ := exists_split?_zeroOrMore p rest
      simp [full, later, split?_sequence_cons]
  have both := h.sequence_cons (h.zeroOrMore some' on stop).last on stop.kstar
  exact ⟨fun taken => both.sound (once _ ▸ taken), fun back inside => by
    obtain ⟨more, rest, taken⟩ := both.reaches back inside
    exact ⟨more, rest, (once _).trans taken⟩⟩

end Repetition

end Recognizer

end JsonTemplate.Pattern

import JsonTemplate.Escape.Html
import Mathlib.Data.List.Infix

namespace JsonTemplate.Escape

def scriptWord : List Char := "script".toList

/-- A text without a closing script tag, in any case. -/
def Unclosed (text : List Char) : Prop :=
  ∀ before word after, text = before ++ '<' :: '/' :: (word ++ after) →
    word.map Char.toLower ≠ scriptWord

section

variable {c : Char} {word text : List Char}

theorem startsWithWord_lower {w after : List Char} (h : w.map Char.toLower = word) :
    startsWithWord word (w ++ after) = true := by
  induction w generalizing word with
  | nil =>
    rw [← h]
    rfl
  | cons c w ih =>
    rw [← h, List.map_cons, List.cons_append, startsWithWord, ih rfl, sameLetter]
    simp

theorem startsWithWord_append (other : ∀ w ∈ word, sameLetter w c = false) (rest : List Char) :
    startsWithWord word (text ++ c :: rest) = startsWithWord word text := by
  induction word generalizing text with
  | nil => rw [startsWithWord, startsWithWord]
  | cons w word ih =>
    cases text with
    | nil => simp [startsWithWord, other w List.mem_cons_self]
    | cons d text =>
      rw [List.cons_append, startsWithWord, startsWithWord,
        ih fun w member => other w (List.mem_cons_of_mem _ member)]

theorem scriptTags_cons (other : c ≠ '<') (rest : List Char) :
    scriptTags (c :: rest) = c :: scriptTags rest := by
  rw [scriptTags]
  exact fun _ same => absurd same other

theorem scriptTags_append {front : List Char} (none : '<' ∉ front) (back : List Char) :
    scriptTags (front ++ back) = front ++ scriptTags back := by
  induction front with
  | nil => rfl
  | cons c front ih =>
    obtain ⟨first, none⟩ := List.ne_and_not_mem_of_not_mem_cons none
    rw [List.cons_append, scriptTags_cons first.symm, ih none, List.cons_append]

theorem head_scriptTags (text : List Char) : (scriptTags text).head? = text.head? := by
  fun_cases scriptTags text <;> rfl

theorem startsWithWord_scriptTags (letters : ∀ w ∈ word, sameLetter w '<' = false) :
    startsWithWord word (scriptTags text) = startsWithWord word text := by
  induction word generalizing text with
  | nil => rw [startsWithWord, startsWithWord]
  | cons w word ih =>
    cases text with
    | nil => rfl
    | cons c text =>
      by_cases angle : c = '<'
      · subst angle
        obtain ⟨more, same⟩ := List.head?_eq_some_iff.mp (head_scriptTags ('<' :: text))
        rw [same, startsWithWord, startsWithWord, letters w List.mem_cons_self]
        rfl
      · rw [scriptTags_cons angle, startsWithWord, startsWithWord,
          ih fun w member => letters w (List.mem_cons_of_mem _ member)]

theorem scriptWord_angle : ∀ w ∈ scriptWord, sameLetter w '<' = false := by
  simp [scriptWord, sameLetter]

theorem scriptWord_quote : ∀ w ∈ scriptWord, sameLetter w '"' = false := by
  simp [scriptWord, sameLetter]

end

theorem scriptTags_starts {text rest : List Char} (h : '<' :: '/' :: rest <:+ scriptTags text) :
    startsWithWord scriptWord rest = false := by
  -- Along the cases of the rewriting: what ends the output either ends what the rest gives, or it
  -- is the output of the case.
  fun_induction scriptTags text with
  | case1 text word ih =>
    rcases List.suffix_cons_iff.mp h with same | h
    · cases same
    · rcases List.suffix_cons_iff.mp h with same | h
      · cases same
      · rcases List.suffix_cons_iff.mp h with same | h
        · cases same
        · exact ih h
  | case2 text word ih =>
    rcases List.suffix_cons_iff.mp h with same | later
    · rw [scriptTags_cons (by decide)] at same
      cases same
      rw [startsWithWord_scriptTags scriptWord_angle]
      exact Bool.eq_false_iff.mpr word
    · exact ih later
  | case3 c text other ih =>
    rcases List.suffix_cons_iff.mp h with same | later
    · -- The slash would be the first character of the rest.
      obtain ⟨rfl, written⟩ := List.cons.inj same
      have first := head_scriptTags text
      rw [← written, List.head?_cons] at first
      obtain ⟨more, rfl⟩ := List.head?_eq_some_iff.mp first.symm
      exact absurd rfl (other more rfl)
    · exact ih later
  | case4 => simp at h

theorem unclosed_scriptTags (text : List Char) : Unclosed (scriptTags text) := by
  intro before word after split' closing
  have suffix : '<' :: '/' :: (word ++ after) <:+ scriptTags text := ⟨before, split'.symm⟩
  have starts := scriptTags_starts suffix
  rw [startsWithWord_lower closing] at starts
  cases starts

def Settled (text : List Char) : Prop :=
  ∀ rest, scriptTags (text ++ rest) = scriptTags text ++ scriptTags rest

theorem Settled.append {front back : List Char} (h : Settled front) (h' : Settled back) :
    Settled (front ++ back) := by
  intro rest
  rw [List.append_assoc, h, h', h, List.append_assoc]

theorem scriptTags_self {text : List Char} (none : '<' ∉ text) : scriptTags text = text := by
  have same := scriptTags_append none []
  rwa [List.append_nil, scriptTags, List.append_nil] at same

theorem settled_of_none {text : List Char} (none : '<' ∉ text) : Settled text := by
  intro rest
  rw [scriptTags_append none, scriptTags_self none]

theorem scriptTags_quote (text rest : List Char) :
    scriptTags (text ++ '"' :: rest) = scriptTags text ++ '"' :: scriptTags rest := by
  fun_induction scriptTags text with
  | case1 text word ih =>
    have word : startsWithWord "script".toList (text ++ '"' :: rest) = true :=
      (startsWithWord_append scriptWord_quote rest).trans word
    rw [List.cons_append, List.cons_append, scriptTags, if_pos word, ih]
    rfl
  | case2 text word ih =>
    have word : ¬startsWithWord "script".toList (text ++ '"' :: rest) = true :=
      fun starts => word ((startsWithWord_append scriptWord_quote rest).symm.trans starts)
    rw [List.cons_append, List.cons_append, scriptTags, if_neg word, ← List.cons_append, ih]
    rfl
  | case3 c text other ih =>
    rw [List.cons_append, scriptTags, ih]
    · rfl
    · intro more angle same
      cases text with
      | nil => cases same
      | cons d text =>
        cases same
        exact other text angle rfl
  | case4 => exact scriptTags_cons (by decide) rest

theorem settled_quote (text : List Char) {back : List Char} (h : Settled back) :
    Settled (text ++ '"' :: back) := by
  intro rest
  rw [List.append_assoc, List.cons_append, scriptTags_quote, h, scriptTags_quote,
    List.append_assoc, List.cons_append]

end JsonTemplate.Escape

import JsonTemplate.Proofs.Pattern.Words
import JsonTemplate.Proofs.Text.Pieces
import JsonTemplate.Variable.Name

namespace JsonTemplate

open JsonTemplate.Number JsonTemplate.Text JsonTemplate.Pattern JsonTemplate.Pattern.Recognizer

/-- A word or a number: what stands between the points of a name. -/
def IsAtom (piece : List Char) : Prop := IsWord piece ∨ IsRun Char.isDigit piece

namespace IsAtom

variable {piece : List Char}

theorem isWordChar (h : IsAtom piece) : ∀ c ∈ piece, isWordChar c = true := by
  rcases h with word | number
  · exact word.isWordChar
  · exact fun c member => isWordChar_of_digit ((isMember_digit c).trans (number.2 c member))

theorem ne_nil (h : IsAtom piece) : piece ≠ [] := by
  rcases h with word | number
  · exact word.ne_nil
  · exact number.1

theorem not_mem (h : IsAtom piece) {c : Char} (outside : Text.isWordChar c = false) :
    c ∉ piece := by
  intro member
  rw [h.isWordChar c member] at outside
  cases outside

theorem exists_mem (h : IsAtom piece) : ∃ c ∈ piece, c ≠ '@' := by
  obtain ⟨c, member⟩ := List.exists_mem_of_ne_nil _ h.ne_nil
  refine ⟨c, member, fun same => ?_⟩
  rw [same] at member
  exact h.not_mem (by decide) member

end IsAtom

def dotted (atoms : List (List Char)) : List Char := atoms.flatMap ('.' :: ·)

@[simp] theorem dotted_nil : dotted [] = [] := rfl

@[simp] theorem dotted_cons (piece : List Char) (rest : List (List Char)) :
    dotted (piece :: rest) = '.' :: (piece ++ dotted rest) := rfl

/-- What is written for a variable. -/
inductive IsVariable : List Char → Prop where
  | current : IsVariable ['@']
  | path (signs : Nat) (first : List Char) (rest : List (List Char)) :
      IsAtom first → (∀ piece ∈ rest, IsAtom piece) →
        IsVariable (List.replicate signs '@' ++ (first ++ dotted rest))

def isNameChar (c : Char) : Bool := isWordChar c || ['.', '@'].contains c

namespace IsVariable

variable {raw : List Char}

theorem isNameChar (h : IsVariable raw) : ∀ c ∈ raw, isNameChar c = true := by
  have atom {piece : List Char} (isAtom : IsAtom piece) {c : Char} (member : c ∈ piece) :
      JsonTemplate.isNameChar c = true := by
    rw [JsonTemplate.isNameChar, isAtom.isWordChar c member, Bool.true_or]
  intro c member
  cases h with
  | current =>
    rw [List.mem_singleton.mp member]
    decide
  | path signs first rest isAtom atoms =>
    rcases List.mem_append.mp member with sign | member
    · rw [List.eq_of_mem_replicate sign]
      decide
    · rcases List.mem_append.mp member with member | member
      · exact atom isAtom member
      · obtain ⟨piece, inside, member⟩ := List.mem_flatMap.mp member
        rcases List.mem_cons.mp member with rfl | member
        · decide
        · exact atom (atoms piece inside) member

theorem starts (h : IsVariable raw) :
    ∃ c rest, raw = c :: rest ∧ (c = '@' ∨ isWordChar c = true) := by
  cases h with
  | current => exact ⟨'@', [], rfl, .inl rfl⟩
  | path signs first rest isAtom atoms =>
    cases signs with
    | succ signs => exact ⟨'@', _, rfl, .inl rfl⟩
    | zero =>
      cases first with
      | nil => exact absurd rfl isAtom.ne_nil
      | cons c more => exact ⟨c, _, rfl, .inr (isAtom.isWordChar c List.mem_cons_self)⟩

end IsVariable

namespace Pattern

theorem of_split?_wordOrDigits {text front back : List Char}
    (taken : wordOrDigits.split? text = some (front, back)) : IsAtom front := by
  rcases of_split?_choice taken with word | number
  · exact .inl (takes_wordPattern.sound word).1
  · exact .inr (takes_digits.sound number).1

theorem not_word_and_run {word run back rest : List Char} (isWord : IsWord word)
    (isRun : IsRun Char.isDigit run) : word ++ back ≠ run ++ rest := by
  intro same
  cases word with
  | nil => cases isWord
  | cons c more =>
    cases run with
    | nil => exact isRun.1 rfl
    | cons d digits =>
      have heads : c = d := (List.cons.inj same).1
      have digit := isRun.2 d List.mem_cons_self
      rw [← heads, isDigit_of_isLetter isWord.1] at digit
      cases digit

theorem split?_wordOrDigits {piece back : List Char} (h : IsAtom piece)
    (stop : Stops isWordChar back) : wordOrDigits.split? (piece ++ back) = some (piece, back) := by
  rcases h with word | number
  · refine split?_choice_left (takes_wordPattern.complete word stop) ?_
    intro other rest taken
    exact absurd (split?_append taken).symm (not_word_and_run word (takes_digits.sound taken).1)
  · have noDigit : Stops Char.isDigit back := by
      refine stop.mono fun c outside => ?_
      cases digit : c.isDigit with
      | false => rfl
      | true => rw [isWordChar_of_digit ((isMember_digit c).trans digit)] at outside; cases outside
    have noWord : wordPattern.split? (piece ++ back) = none := by
      cases taken : wordPattern.split? (piece ++ back) with
      | none => rfl
      | some result =>
        obtain ⟨front, after⟩ := result
        have word := (takes_wordPattern.sound taken).1
        exact absurd (split?_append taken) (not_word_and_run word number)
    rw [wordOrDigits, split?_choice_right _ noWord]
    exact takes_digits.complete number noDigit

def pointPiece : Recognizer := .sequence [Recognizer.text ".", wordOrDigits]

theorem of_split?_pointPiece {text front back : List Char}
    (taken : pointPiece.split? text = some (front, back)) :
    ∃ piece, IsAtom piece ∧ front = '.' :: piece := by
  obtain ⟨point, more, rest, first, second, rfl⟩ := of_split?_sequence taken
  obtain ⟨piece, none, left, third, last, rfl⟩ := of_split?_sequence second
  obtain ⟨rfl, -⟩ := of_split?_literal first
  obtain ⟨rfl, -⟩ := of_split?_sequence_nil last
  exact ⟨piece, of_split?_wordOrDigits third, by simp⟩

theorem split?_pointPiece {piece back : List Char} (h : IsAtom piece)
    (stop : Stops isWordChar back) :
    pointPiece.split? ('.' :: piece ++ back) = some ('.' :: piece, back) := by
  have tail := split?_sequence_of (split?_wordOrDigits h stop) (split?_sequence_nil back)
  rw [List.append_nil] at tail
  exact split?_sequence_of (split?_literal ['.'] (piece ++ back)) tail

theorem split?_pointPiece_none {text : List Char} (stop : Stops isNameChar text) :
    pointPiece.split? text = none := by
  cases taken : pointPiece.split? text with
  | none => rfl
  | some result =>
    obtain ⟨front, back⟩ := result
    obtain ⟨piece, -, rfl⟩ := of_split?_pointPiece taken
    have whole := split?_append taken
    have point := stop '.' (by rw [← whole]; rfl)
    exact absurd point (by decide)

theorem of_split?_pointPieces {text front back : List Char}
    (taken : (zeroOrMore pointPiece).split? text = some (front, back)) :
    ∃ rest, (∀ piece ∈ rest, IsAtom piece) ∧ front = dotted rest := by
  generalize size : text.length = n at *
  -- A repetition is no recursion on the text, so the induction is on its length.
  induction n using Nat.strongRecOn generalizing text front with
  | ind n ih =>
    rw [split?_zeroOrMore] at taken
    cases first : pointPiece.split? text with
    | none =>
      rw [first] at taken
      cases taken
      exact ⟨[], by simp, rfl⟩
    | some result =>
      obtain ⟨one, left⟩ := result
      obtain ⟨piece, isAtom, rfl⟩ := of_split?_pointPiece first
      rw [first] at taken
      simp only [List.cons_ne_nil, if_false] at taken
      obtain ⟨⟨more, last⟩, second, same⟩ := Option.map_eq_some_iff.mp taken
      cases same
      have shorter : left.length < n := by
        rw [← size, ← split?_append first, List.length_append, List.length_cons]
        omega
      obtain ⟨rest, atoms, rfl⟩ := ih _ shorter second rfl
      refine ⟨piece :: rest, ?_, rfl⟩
      intro other member
      rcases List.mem_cons.mp member with rfl | member
      · exact isAtom
      · exact atoms other member

theorem stops_dotted (rest : List (List Char)) {back : List Char} (stop : Stops isNameChar back) :
    Stops isWordChar (dotted rest ++ back) := by
  cases rest with
  | nil => exact stop.mono fun c h => (Bool.or_eq_false_iff.mp h).1
  | cons piece rest => exact .cons (by decide) _

theorem split?_pointPieces {rest : List (List Char)} {back : List Char}
    (atoms : ∀ piece ∈ rest, IsAtom piece) (stop : Stops isNameChar back) :
    (zeroOrMore pointPiece).split? (dotted rest ++ back) = some (dotted rest, back) := by
  induction rest with
  | nil =>
    rw [split?_zeroOrMore]
    simp [split?_pointPiece_none stop]
  | cons piece rest ih =>
    have first := split?_pointPiece (atoms piece List.mem_cons_self) (stops_dotted rest stop)
    have later := ih fun other member => atoms other (List.mem_cons_of_mem _ member)
    have parts : dotted (piece :: rest) ++ back = '.' :: piece ++ (dotted rest ++ back) := by simp
    rw [split?_zeroOrMore, parts, first]
    simp [later]

theorem split?_wordOrDigits_none {text : List Char} (stop : Stops isWordChar text) :
    wordOrDigits.split? text = none := by
  cases taken : wordOrDigits.split? text with
  | none => rfl
  | some result =>
    obtain ⟨front, back⟩ := result
    have isAtom := of_split?_wordOrDigits taken
    have whole := split?_append taken
    cases front with
    | nil => exact absurd rfl isAtom.ne_nil
    | cons c rest =>
      have inside := isAtom.isWordChar c List.mem_cons_self
      rw [stop c (by rw [← whole]; rfl)] at inside
      cases inside

theorem of_split?_dotWord {text front back : List Char}
    (taken : dotWord.split? text = some (front, back)) :
    ∃ first rest, IsAtom first ∧ (∀ piece ∈ rest, IsAtom piece) ∧
      front = first ++ dotted rest := by
  obtain ⟨first, more, left, one, second, rfl⟩ := of_split?_sequence taken
  obtain ⟨points, none, last, third, done, rfl⟩ := of_split?_sequence second
  obtain ⟨rfl, -⟩ := of_split?_sequence_nil done
  obtain ⟨rest, atoms, rfl⟩ := of_split?_pointPieces third
  exact ⟨first, rest, of_split?_wordOrDigits one, atoms, by rw [List.append_nil]⟩

theorem split?_dotWord {first back : List Char} {rest : List (List Char)} (isAtom : IsAtom first)
    (atoms : ∀ piece ∈ rest, IsAtom piece) (stop : Stops isNameChar back) :
    dotWord.split? (first ++ dotted rest ++ back) = some (first ++ dotted rest, back) := by
  have one := split?_wordOrDigits isAtom (stops_dotted rest stop)
  have tail := split?_sequence_of (split?_pointPieces atoms stop) (split?_sequence_nil back)
  rw [List.append_nil] at tail
  rw [List.append_assoc]
  exact split?_sequence_of one tail

theorem takesOne_sign : (Recognizer.text "@").TakesOne (· == '@') := takesOne_literal '@'

theorem of_split?_variableName {text front back : List Char}
    (taken : variableName.split? text = some (front, back)) : IsVariable front := by
  rcases of_split?_choice taken with path | sign
  · obtain ⟨signs, more, left, one, second, rfl⟩ := of_split?_sequence path
    obtain ⟨name, none, last, third, done, rfl⟩ := of_split?_sequence second
    obtain ⟨rfl, -⟩ := of_split?_sequence_nil done
    obtain ⟨first, rest, isAtom, atoms, rfl⟩ := of_split?_dotWord third
    rw [takesOne_sign.zeroOrMore] at one
    cases one
    have same : text.takeWhile (· == '@') =
        List.replicate (text.takeWhile (· == '@')).length '@' := by
      refine List.eq_replicate_iff.mpr ⟨rfl, fun c member => ?_⟩
      exact beq_iff_eq.mp (List.all_eq_true.mp List.all_takeWhile c member)
    rw [List.append_nil, same]
    exact .path _ first rest isAtom atoms
  · obtain ⟨rfl, -⟩ := of_split?_literal sign
    exact .current

theorem split?_variableName_current {back : List Char} (stop : Stops isNameChar back) :
    variableName.split? (['@'] ++ back) = some (['@'], back) := by
  have outside : Stops isWordChar back := stop.mono fun c h => (Bool.or_eq_false_iff.mp h).1
  have noSign : Stops (· == '@') back := by
    refine stop.mono fun c h => ?_
    cases same : c == '@' with
    | false => rfl
    | true =>
      rw [beq_iff_eq.mp same] at h
      exact absurd h (by decide)
  have sign : (zeroOrMore (Recognizer.text "@")).split? (['@'] ++ back) = some (['@'], back) := by
    rw [takesOne_sign.zeroOrMore, noSign.takeWhile_append (by simp),
      noSign.dropWhile_append (by simp)]
  have noName : dotWord.split? back = none := by
    rw [dotWord, split?_sequence_cons, split?_wordOrDigits_none outside]
    rfl
  rw [variableName, split?_choice_right]
  · exact split?_literal ['@'] back
  · simp only [split?_sequence_cons, sign, noName, Option.bind_some, Option.bind_none,
      Option.map_none]

theorem split?_variableName_path (signs : Nat) {first back : List Char} {rest : List (List Char)}
    (isAtom : IsAtom first) (atoms : ∀ piece ∈ rest, IsAtom piece) (stop : Stops isNameChar back) :
    variableName.split? (List.replicate signs '@' ++ (first ++ dotted rest) ++ back) =
      some (List.replicate signs '@' ++ (first ++ dotted rest), back) := by
  have signsEnd : Stops (· == '@') (first ++ dotted rest ++ back) := by
    cases first with
    | nil => exact absurd rfl isAtom.ne_nil
    | cons c more =>
      refine .cons ?_ _
      cases same : c == '@' with
      | false => rfl
      | true =>
        have inside := isAtom.isWordChar c List.mem_cons_self
        rw [beq_iff_eq.mp same] at inside
        exact absurd inside (by decide)
  have allSigns : ∀ c ∈ List.replicate signs '@', (c == '@') = true := by
    intro c member
    rw [List.eq_of_mem_replicate member]
    rfl
  have sign : (zeroOrMore (Recognizer.text "@")).split?
      (List.replicate signs '@' ++ (first ++ dotted rest ++ back)) =
        some (List.replicate signs '@', first ++ dotted rest ++ back) := by
    rw [takesOne_sign.zeroOrMore, signsEnd.takeWhile_append allSigns,
      signsEnd.dropWhile_append allSigns]
  have tail := split?_sequence_of (split?_dotWord isAtom atoms stop) (split?_sequence_nil back)
  rw [List.append_nil] at tail
  rw [List.append_assoc]
  refine split?_choice_left (split?_sequence_of sign tail) ?_
  intro other left taken
  obtain ⟨rfl, -⟩ := of_split?_literal taken
  have some' : 0 < first.length := List.length_pos_iff.mpr isAtom.ne_nil
  have single : "@".toList.length = 1 := rfl
  rw [single]
  simp only [List.length_append]
  omega

theorem split?_variableName {raw back : List Char} (isVariable : IsVariable raw)
    (stop : Stops isNameChar back) : variableName.split? (raw ++ back) = some (raw, back) := by
  cases isVariable with
  | current => exact split?_variableName_current stop
  | path signs first rest isAtom atoms => exact split?_variableName_path signs isAtom atoms stop

end Pattern

theorem digitsValue_toDigits (n : Nat) : digitsValue (Nat.toDigits 10 n) = n := by
  have value := Nat.ofDigitChars_ten_toDigits (n := n)
  rw [Nat.ofDigitChars_eq_foldl] at value
  simp only [digitsValue, Nat.mul_comm _ 10]
  exact value

namespace Segment

theorem parse_key {piece : List Char} {c : Char} (member : c ∈ piece) (other : c.isDigit = false) :
    parse piece = .key (String.ofList piece) := by
  have mixed : ¬(piece.all Char.isDigit = true ∧ digitsValue piece < 0x80000000) := by
    intro h
    rw [List.all_eq_true.mp h.1 c member] at other
    cases other
  rw [parse, if_neg mixed]

theorem parse_text (piece : List Char) : parse (parse piece).text.toList = parse piece := by
  by_cases number : piece.all Char.isDigit = true ∧ digitsValue piece < 0x80000000
  · have index : parse piece = .index (digitsValue piece) := if_pos number
    have digits : (parse piece).text.toList = Nat.toDigits 10 (digitsValue piece) := by
      rw [index]
      exact Nat.toList_repr
    have all : (Nat.toDigits 10 (digitsValue piece)).all Char.isDigit = true :=
      List.all_eq_true.mpr fun c => Nat.isDigit_of_mem_toDigits (by decide) (by decide)
    rw [digits, index, parse, digitsValue_toDigits, if_pos ⟨all, number.2⟩]
  · have key : parse piece = .key (String.ofList piece) := if_neg number
    rw [key, text, String.toList_ofList, key]

theorem isAtom_text {piece : List Char} (h : IsAtom piece) : IsAtom (parse piece).text.toList := by
  by_cases number : piece.all Char.isDigit = true ∧ digitsValue piece < 0x80000000
  · have digits : (parse piece).text.toList = Nat.toDigits 10 (digitsValue piece) := by
      rw [parse, if_pos number]
      exact Nat.toList_repr
    rw [digits]
    exact .inr ⟨Nat.toDigits_ne_nil, fun c => Nat.isDigit_of_mem_toDigits (by decide) (by decide)⟩
  · rw [parse, if_neg number, text, String.toList_ofList]
    exact h

end Segment

namespace VarName

/-- The name is read from its text. -/
structure Readable (v : VarName) : Prop where
  written : IsVariable v.text.toList
  read : parse v.text.toList = v

theorem parse_pieces (signs : Nat) {first : List Char} {rest : List (List Char)}
    (isAtom : IsAtom first) (atoms : ∀ piece ∈ rest, IsAtom piece) :
    parse (List.replicate signs '@' ++ (first ++ dotted rest)) =
      path (Segment.parse (List.replicate signs '@' ++ first) :: rest.map Segment.parse) := by
  obtain ⟨c, member, other⟩ := isAtom.exists_mem
  have joined : List.replicate signs '@' ++ (first ++ dotted rest) =
      joinWith ['.'] ((List.replicate signs '@' ++ first) :: rest) := by
    rw [joinWith_cons, List.append_assoc]
    rfl
  have named : List.replicate signs '@' ++ (first ++ dotted rest) ≠ ['@'] := by
    intro same
    have inside : c ∈ ['@'] := by
      rw [← same]
      exact List.mem_append_right _ (List.mem_append_left _ member)
    exact other (List.mem_singleton.mp inside)
  have points : '.' ∉ List.replicate signs '@' ++ first := by
    intro inside
    rcases List.mem_append.mp inside with inside | inside
    · exact absurd (List.eq_of_mem_replicate inside) (by decide)
    · exact isAtom.not_mem (by decide) inside
  have whole : ∀ piece ∈ (List.replicate signs '@' ++ first) :: rest, '.' ∉ piece ∧ piece ≠ [] := by
    intro piece inside
    rcases List.mem_cons.mp inside with rfl | inside
    · exact ⟨points, by simpa using fun _ => isAtom.ne_nil⟩
    · exact ⟨(atoms piece inside).not_mem (by decide), (atoms piece inside).ne_nil⟩
  rw [parse, if_neg named, joined, filter_pieces_joinWith whole, List.map_cons]

theorem signed_text (signs : Nat) {first : List Char} (isAtom : IsAtom first) :
    ∃ piece, IsAtom piece ∧
      (Segment.parse (List.replicate signs '@' ++ first)).text.toList =
        List.replicate signs '@' ++ piece := by
  cases signs with
  | zero => exact ⟨_, Segment.isAtom_text isAtom, rfl⟩
  | succ signs =>
    have sign : '@' ∈ List.replicate (signs + 1) '@' ++ first := by simp
    refine ⟨first, isAtom, ?_⟩
    rw [Segment.parse_key sign (by decide), Segment.text, String.toList_ofList]

theorem parse_readable {raw : List Char} (h : IsVariable raw) : (parse raw).Readable := by
  cases h with
  | current => exact ⟨.current, rfl⟩
  | path signs first rest isAtom atoms =>
    let again (piece : List Char) : List Char := (Segment.parse piece).text.toList
    obtain ⟨piece, isPiece, signed⟩ := signed_text signs isAtom
    have others : ∀ other ∈ rest.map again, IsAtom other := by
      intro other member
      obtain ⟨old, inside, rfl⟩ := List.mem_map.mp member
      exact Segment.isAtom_text (atoms old inside)
    have written : (parse (List.replicate signs '@' ++ (first ++ dotted rest))).text.toList =
        List.replicate signs '@' ++ (piece ++ dotted (rest.map again)) := by
      rw [parse_pieces signs isAtom atoms, text, String.toList_ofList, List.map_cons, joinWith_cons,
        signed, List.append_assoc, List.map_map]
      rfl
    refine ⟨by rw [written]; exact .path signs piece _ isPiece others, ?_⟩
    rw [written, parse_pieces signs isPiece others, parse_pieces signs isAtom atoms, ← signed,
      Segment.parse_text, List.map_map]
    congr 2
    exact List.map_congr_left fun old _ => Segment.parse_text old

theorem stops_text {raw : List Char} (h : IsVariable raw) (start : Stops Char.isDigit raw) :
    Stops Char.isDigit (parse raw).text.toList := by
  cases h with
  | current => exact .cons (by decide) _
  | path signs first rest isAtom atoms =>
    have full : List.replicate signs '@' ++ first ≠ [] :=
      fun none => isAtom.ne_nil (List.append_eq_nil_iff.mp none).2
    rw [← List.append_assoc] at start
    obtain ⟨c, more, same⟩ := List.exists_cons_of_ne_nil full
    rw [same] at start
    have other : c.isDigit = false := start c rfl
    have key : Segment.parse (c :: more) = .key (String.ofList (c :: more)) :=
      Segment.parse_key List.mem_cons_self other
    rw [parse_pieces signs isAtom atoms, same, key, text, String.toList_ofList, List.map_cons,
      joinWith_cons, Segment.text, String.toList_ofList]
    exact .cons other _

end VarName

end JsonTemplate

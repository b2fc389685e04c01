import JsonTemplate.Proofs.Pattern.Words
import JsonTemplate.Proofs.Variable.Name
import JsonTemplate.Template.Tag

namespace JsonTemplate

open JsonTemplate.Text JsonTemplate.Pattern JsonTemplate.Pattern.Recognizer

namespace Tag

variable {raw text before after rest : List Char} {vars : List VarName}

theorem readVar?_readable {v : VarName} (h : readVar? text = some (v, rest)) : v.Readable := by
  obtain ⟨⟨name, left⟩, taken, same⟩ := Option.map_eq_some_iff.mp h
  cases same
  exact VarName.parse_readable (of_split?_variableName taken)

theorem readVar?_rest {v : VarName} (h : readVar? text = some (v, rest)) : rest <:+ text := by
  obtain ⟨⟨name, left⟩, taken, same⟩ := Option.map_eq_some_iff.mp h
  cases same
  exact ⟨name, split?_append taken⟩

theorem readVar?_variable (isVariable : IsVariable raw) (stop : Stops isNameChar rest) :
    readVar? (raw ++ rest) = some (VarName.parse raw, rest) := by
  rw [readVar?, split?_variableName isVariable stop]
  rfl

theorem readVar?_text {v : VarName} (h : v.Readable) (stop : Stops isNameChar rest) :
    readVar? (v.text.toList ++ rest) = some (v, rest) := by
  rw [readVar?_variable h.written stop, h.read]

theorem readVar?_whole {v : VarName} (h : v.Readable) : readVar? v.text.toList = some (v, []) := by
  have named := readVar?_text h .nil
  rwa [List.append_nil] at named

theorem readMoreVars_readable {fuel : Nat} {vars : List VarName}
    (h : readMoreVars fuel text = .ok (vars, rest)) : ∀ v ∈ vars, v.Readable := by
  fun_induction readMoreVars fuel text generalizing vars rest with
  | case1 text | case2 text =>
    cases h
    simp
  | case3 => cases h
  | case4 fuel text comma afterComma _ v left first ih =>
    obtain ⟨⟨more, last⟩, second, same⟩ := ok_of_map h
    cases same
    intro w member
    rcases List.mem_cons.mp member with rfl | member
    · exact readVar?_readable first
    · exact ih second w member

theorem readMoreVars_rest {fuel : Nat} {vars : List VarName}
    (h : readMoreVars fuel text = .ok (vars, rest)) : rest <:+ text := by
  fun_induction readMoreVars fuel text generalizing vars rest with
  | case1 text | case2 text =>
    cases h
    exact List.suffix_refl _
  | case3 => cases h
  | case4 fuel text comma afterComma delimited v left first ih =>
    obtain ⟨⟨more, last⟩, second, same⟩ := ok_of_map h
    cases same
    have further : afterComma <:+ text := ⟨comma, split?_append delimited⟩
    exact ((ih second).trans (readVar?_rest first)).trans further

/-- A text in front of another is a variable, and no variable goes on any further. -/
structure TakesVariable (raw rest : List Char) : Prop where
  isVariable : IsVariable raw
  longest : ∀ more, more ≠ [] → more <+: rest → ¬IsVariable (raw ++ more)

/-- Variables in front of a text, with commas between them and white space around the commas. -/
inductive VariableList : List VarName → List Char → List Char → Prop where
  | single {raw rest : List Char} :
      TakesVariable raw rest → VariableList [VarName.parse raw] raw rest
  | cons {vars : List VarName} {raw before after text rest : List Char} :
      TakesVariable raw (before ++ ',' :: (after ++ (text ++ rest))) →
      (∀ c ∈ before, isTagSpace c = true) → (∀ c ∈ after, isTagSpace c = true) →
      VariableList vars text rest →
      VariableList (VarName.parse raw :: vars) (raw ++ (before ++ ',' :: (after ++ text))) rest

theorem takesOne_tagSpace : tagSpace.TakesOne isTagSpace := takesOne_char _

/-- What ends a list of variables: a pipe or the end of the tag. -/
def endsVars (text : List Char) : Prop := text = [] ∨ ∃ more, text = '|' :: more

theorem split?_variablesDelimiter_none (h : endsVars rest) :
    variablesDelimiter.split? rest = none := by
  have before : (zeroOrMore tagSpace).split? rest = some ([], rest) := by
    rw [takesOne_tagSpace.zeroOrMore]
    rcases h with rfl | ⟨more, rfl⟩ <;> rfl
  have comma : (Recognizer.text ",").split? rest = none := by
    rw [show Recognizer.text "," = literal [','] from rfl, takesOne_literal]
    rcases h with rfl | ⟨more, rfl⟩ <;> rfl
  rw [variablesDelimiter, split?_sequence_cons, before, Option.bind_some]
  simp only [split?_sequence_cons, comma, Option.bind_none, Option.map_none]

theorem endsVars.stops (h : endsVars rest) : Stops isNameChar rest := by
  rcases h with rfl | ⟨more, rfl⟩
  · exact .nil
  · exact .cons (by decide) _

theorem TakesVariable.of_stops (isVariable : IsVariable raw) (stop : Stops isNameChar rest) :
    TakesVariable raw rest := by
  refine ⟨isVariable, fun more some' starts longer => ?_⟩
  cases more with
  | nil => exact some' rfl
  | cons c more =>
    obtain ⟨left, rfl⟩ := starts
    have inside := longer.isNameChar c (by simp)
    rw [stop c rfl] at inside
    cases inside

theorem not_isNameChar_of_isTagSpace {c : Char} (blank : isTagSpace c = true) :
    isNameChar c = false := by
  have none : tagSpaces.any isNameChar = false := by decide
  exact Bool.eq_false_iff.mpr (List.any_eq_false.mp none c (List.contains_iff_mem.mp blank))

theorem stops_comma (blank : ∀ c ∈ before, isTagSpace c = true) (rest : List Char) :
    Stops isNameChar (before ++ ',' :: rest) := by
  cases before with
  | nil => exact .cons (by decide) _
  | cons c more => exact .cons (not_isNameChar_of_isTagSpace (blank c List.mem_cons_self)) _

theorem stops_tagSpace_variable (isVariable : IsVariable raw) (rest : List Char) :
    Stops isTagSpace (raw ++ rest) := by
  obtain ⟨c, more, rfl, kind⟩ := isVariable.starts
  refine .cons ?_ _
  rcases kind with rfl | word
  · decide
  · exact not_contains_of_class tagSpaces (by decide) word

theorem VariableList.stops (list : VariableList vars text rest) :
    Stops isTagSpace (text ++ rest) := by
  cases list with
  | single taken => exact stops_tagSpace_variable taken.isVariable _
  | cons taken =>
    rw [List.append_assoc]
    exact stops_tagSpace_variable taken.isVariable _

theorem split?_comma (blank : ∀ c ∈ before, isTagSpace c = true)
    (blank' : ∀ c ∈ after, isTagSpace c = true) (stop : Stops isTagSpace rest) :
    variablesDelimiter.split? (before ++ ',' :: (after ++ rest)) =
      some (before ++ ',' :: after, rest) := by
  have comma : Stops isTagSpace (',' :: (after ++ rest)) := .cons (by decide) _
  have first : (zeroOrMore tagSpace).split? (before ++ ',' :: (after ++ rest)) =
      some (before, ',' :: (after ++ rest)) := by
    rw [takesOne_tagSpace.zeroOrMore, comma.takeWhile_append blank, comma.dropWhile_append blank]
  have last : (zeroOrMore tagSpace).split? (after ++ rest) = some (after, rest) := by
    rw [takesOne_tagSpace.zeroOrMore, stop.takeWhile_append blank', stop.dropWhile_append blank']
  have tail := split?_sequence_of (split?_literal [','] (after ++ rest))
    (split?_sequence_of last (split?_sequence_nil rest))
  rw [List.append_nil] at tail
  exact split?_sequence_of first tail

theorem of_split?_comma {taken : List Char} (h : variablesDelimiter.split? text = some (taken, rest)) :
    ∃ before after, (∀ c ∈ before, isTagSpace c = true) ∧ (∀ c ∈ after, isTagSpace c = true) ∧
      text = before ++ ',' :: (after ++ rest) := by
  have run {text front back : List Char}
      (h : (zeroOrMore tagSpace).split? text = some (front, back)) :
      (∀ c ∈ front, isTagSpace c = true) ∧ text = front ++ back := by
    rw [takesOne_tagSpace.zeroOrMore] at h
    cases h
    exact ⟨List.all_eq_true.mp List.all_takeWhile, List.takeWhile_append_dropWhile.symm⟩
  obtain ⟨before, _, afterBlank, one, second, -⟩ := of_split?_sequence h
  obtain ⟨comma, _, afterComma, two, third, -⟩ := of_split?_sequence second
  obtain ⟨after, _, left, three, done, -⟩ := of_split?_sequence third
  obtain ⟨blank, rfl⟩ := run one
  obtain ⟨-, rfl⟩ := of_split?_literal two
  obtain ⟨blank', rfl⟩ := run three
  obtain ⟨-, rfl⟩ := of_split?_sequence_nil done
  exact ⟨before, after, blank, blank', rfl⟩

theorem VariableList.reads (list : VariableList vars text rest) (ends : endsVars rest) :
    ∃ v more left, vars = v :: more ∧ readVar? (text ++ rest) = some (v, left) ∧
      more.length ≤ left.length ∧
      ∀ fuel, more.length ≤ fuel → readMoreVars fuel left = .ok (more, rest) := by
  induction list with
  | single taken =>
    refine ⟨_, [], _, rfl, readVar?_variable taken.isVariable ends.stops, Nat.zero_le _, ?_⟩
    intro fuel _
    cases fuel with
    | zero => rfl
    | succ fuel => rw [readMoreVars, split?_variablesDelimiter_none ends]
  | @cons vars raw before after text rest taken blank blank' list ih =>
    obtain ⟨v, more, left, rfl, first, short, others⟩ := ih ends
    have written : raw ++ (before ++ ',' :: (after ++ text)) ++ rest =
        raw ++ (before ++ ',' :: (after ++ (text ++ rest))) := by
      simp only [List.append_assoc, List.cons_append]
    refine ⟨VarName.parse raw, v :: more, before ++ ',' :: (after ++ (text ++ rest)), rfl, ?_, ?_, ?_⟩
    · rw [written]
      exact readVar?_variable taken.isVariable (stops_comma blank _)
    · have suffix := (readVar?_rest first).length_le
      simp only [List.length_append, List.length_cons] at suffix ⊢
      omega
    · intro fuel enough
      cases fuel with
      | zero => cases enough
      | succ fuel =>
        rw [readMoreVars, split?_comma blank blank' list.stops]
        simp only [first, others fuel (Nat.le_of_succ_le_succ enough)]
        rfl

theorem variableList_of_readMoreVars {fuel : Nat} (h : readMoreVars fuel text = .ok (vars, rest))
    (ends : endsVars rest) (isVariable : IsVariable raw) :
    ∃ more, text = more ++ rest ∧
      VariableList (VarName.parse raw :: vars) (raw ++ more) rest := by
  fun_induction readMoreVars fuel text generalizing raw vars rest with
  | case1 text | case2 fuel text _ =>
    cases h
    refine ⟨[], rfl, ?_⟩
    rw [List.append_nil]
    exact .single (.of_stops isVariable ends.stops)
  | case3 => cases h
  | case4 fuel text comma afterComma delimited v left first ih =>
    obtain ⟨⟨others, last⟩, later, same⟩ := ok_of_map h
    cases same
    obtain ⟨before, after, blank, blank', rfl⟩ := of_split?_comma delimited
    obtain ⟨⟨next, left'⟩, taken, named⟩ := Option.map_eq_some_iff.mp first
    cases named
    obtain ⟨more, rfl, list⟩ := ih later ends (of_split?_variableName taken)
    have whole := split?_append taken
    have written : next ++ more ++ rest = afterComma := by rw [← whole, List.append_assoc]
    refine ⟨before ++ ',' :: (after ++ (next ++ more)), ?_, .cons ?_ blank blank' list⟩
    · rw [← written]
      simp only [List.append_assoc, List.cons_append]
    · exact .of_stops isVariable (stops_comma blank _)

theorem VariableList.readVars (list : VariableList vars text rest) (ends : endsVars rest)
    (noBars : ¬['|', '|'] <+: rest) (piped : 1 < vars.length → rest ≠ []) :
    readVars (text ++ rest) = .ok (vars, rest) := by
  obtain ⟨v, more, left, rfl, first, short, others⟩ := list.reads ends
  rw [Tag.readVars, first]
  simp only [others _ short, bind, Except.bind]
  rcases ends with rfl | ⟨after, rfl⟩
  · cases more with
    | nil => rfl
    | cons w more => exact absurd rfl (piped (by simp))
  · split
    · rename_i tail same
      exact absurd ⟨tail, same.symm⟩ noBars
    · rfl
    · rename_i noBar
      exact absurd rfl (noBar after)
    · rename_i noBar
      exact absurd rfl (noBar after)

theorem variableList_of_readVars (h : Tag.readVars text = .ok (vars, rest)) (ends : endsVars rest) :
    ∃ list, text = list ++ rest ∧ VariableList vars list rest ∧ ¬['|', '|'] <+: rest ∧
      (1 < vars.length → rest ≠ []) := by
  unfold Tag.readVars at h
  split at h
  · cases h
  · rename_i v afterFirst first
    obtain ⟨⟨raw, left⟩, taken, named⟩ := Option.map_eq_some_iff.mp first
    cases named
    have isVariable := of_split?_variableName taken
    cases second : readMoreVars afterFirst.length afterFirst with
    | error e => simp [second, bind, Except.bind] at h
    | ok result =>
      obtain ⟨more, left⟩ := result
      simp only [second, bind, Except.bind] at h
      split at h
      · cases h
      · rename_i noBars
        cases h
        obtain ⟨front, rfl, list⟩ := variableList_of_readMoreVars second ends isVariable
        refine ⟨raw ++ front, ?_, list, ?_, nofun⟩
        · rw [← split?_append taken, List.append_assoc]
        · rintro ⟨tail, same⟩
          cases same
          exact noBars _ rfl
      · rename_i noBar
        cases h
        obtain ⟨front, rfl, list⟩ := variableList_of_readMoreVars second ends isVariable
        rcases ends with rfl | ⟨after, rfl⟩
        · refine ⟨raw ++ front, ?_, list, by simp, fun several => ?_⟩
          · rw [← split?_append taken, List.append_assoc]
          · exact absurd several (Nat.lt_irrefl 1)
        · exact absurd rfl (noBar after)
      · cases h

/-- What is known of variables that are read together: without a pipe there is only one. -/
structure VarsRead (vars : List VarName) (rest : List Char) : Prop where
  readable : ∀ v ∈ vars, v.Readable
  some' : vars ≠ []
  single : rest = [] → vars.length = 1

theorem readVars_read {vars : List VarName} (h : readVars text = .ok (vars, rest)) :
    VarsRead vars rest ∧ rest <:+ text := by
  unfold readVars at h
  cases first : readVar? text with
  | none => simp [first] at h
  | some result =>
    obtain ⟨v, afterFirst⟩ := result
    rw [first] at h
    dsimp only at h
    cases second : readMoreVars afterFirst.length afterFirst with
    | error e => simp [second, bind, Except.bind] at h
    | ok result =>
      obtain ⟨more, left⟩ := result
      have readable : ∀ w ∈ v :: more, w.Readable := by
        intro w member
        rcases List.mem_cons.mp member with rfl | member
        · exact readVar?_readable first
        · exact readMoreVars_readable second w member
      have further : left <:+ text := (readMoreVars_rest second).trans (readVar?_rest first)
      simp only [second, bind, Except.bind] at h
      split at h
      · cases h
      · cases h
        exact ⟨⟨readable, List.cons_ne_nil _ _, nofun⟩, further⟩
      · cases h
        exact ⟨⟨readable, List.cons_ne_nil _ _, fun _ => rfl⟩, further⟩
      · cases h

theorem variableList_source (h : ∀ v ∈ vars, v.Readable) (some' : vars ≠ []) (ends : endsVars rest) :
    VariableList vars (varsSource vars) rest := by
  induction vars with
  | nil => exact absurd rfl some'
  | cons v vars ih =>
    have readable := h v List.mem_cons_self
    cases vars with
    | nil =>
      have alone := VariableList.single (.of_stops readable.written ends.stops)
      rwa [readable.read] at alone
    | cons w vars =>
      have later := ih (fun u member => h u (List.mem_cons_of_mem _ member)) (List.cons_ne_nil _ _)
      have none : ∀ c ∈ ([] : List Char), isTagSpace c = true := List.forall_mem_nil _
      have whole := VariableList.cons (.of_stops readable.written (stops_comma none _)) none none later
      have written : varsSource (v :: w :: vars) =
          v.text.toList ++ ([] ++ ',' :: ([] ++ varsSource (w :: vars))) := List.append_assoc ..
      rwa [readable.read, ← written] at whole

theorem readVars_source (h : VarsRead vars rest) (ends : endsVars rest)
    (noBars : ∀ more, rest ≠ '|' :: '|' :: more) :
    readVars (varsSource vars ++ rest) = .ok (vars, rest) := by
  refine (variableList_source h.readable h.some' ends).readVars ends ?_ fun several empty => ?_
  · rintro ⟨more, same⟩
    exact noBars more same.symm
  · rw [h.single empty] at several
    exact absurd several (Nat.lt_irrefl 1)

end Tag

end JsonTemplate

import JsonTemplate.Proofs.Template.Canonical
import JsonTemplate.Proofs.Template.TagProblem
import JsonTemplate.Proofs.Template.VariableList

namespace JsonTemplate

open JsonTemplate.Text JsonTemplate.Pattern JsonTemplate.Pattern.Recognizer

/-- A check looks at values only, and refuses arguments without a value where some are asked for. -/
structure Signature.Steady (s : Signature) : Prop where
  values {a b : Arguments} : a.values = b.values → s.check a = s.check b
  asks {a : Arguments} : s.requiresArgs = true → a.values = [] → s.check a ≠ .ok ()

structure Vocabulary.Steady (v : Vocabulary) : Prop where
  formatter {name : String} {s : Signature} : v.formatter? name = some s → s.Steady
  predicate {name : String} {s : Signature} : v.predicate? name = some s → s.Steady

namespace Tag

variable {rules : Rules} {place : Position} {text rest : List Char}

/-- The arguments of a call were read from a text, and the signature has agreed to them. -/
structure Agreed (s : Signature) (args : Arguments) (raw : List Char) : Prop where
  read : args = (Arguments.parse raw).accept
  check : s.check (Arguments.parse raw) = .ok ()

namespace Agreed

variable {s : Signature} {args : Arguments} {raw : List Char}

theorem join (h : Agreed s args raw) : args.join = (Arguments.parse raw).join := by
  rw [h.read, Arguments.accept_join]

theorem check_join (h : Agreed s args raw) (steady : s.Steady) :
    s.check (Arguments.parse args.join) = .ok () := by
  rw [h.join, Arguments.parse_join, ← h.check]
  exact steady.values (Arguments.canonical_values _)

theorem parse_join (h : Agreed s args raw) :
    (Arguments.parse args.join).accept = args.canonical := by
  rw [h.join, Arguments.parse_join, h.read, Arguments.canonical_accept]

theorem join_ne_nil (h : Agreed s args raw) (steady : s.Steady) (asks : s.requiresArgs = true) :
    args.join ≠ [] := by
  rw [h.join]
  intro empty
  exact steady.asks asks (Arguments.join_eq_nil.mp empty) h.check

theorem mem (h : Agreed s args raw) {c : Char} (member : c ∈ args.join) : c ∈ raw := by
  rw [h.join] at member
  exact Arguments.mem_of_mem_join member

theorem stops {class' : Char → Bool} (h : Agreed s args raw) (stop : Stops class' raw) :
    Stops class' args.join := by
  rw [h.join]
  exact Arguments.stops_join stop

end Agreed

theorem refuse_ne_accept {d : Diagnostic} {op : Op} : refuse d ≠ accept op := nofun

theorem accept_inj {op other : Op} (h : accept op = accept other) : op = other := by
  cases h
  rfl

def IsPredicate (rules : Rules) (call : Call) (raw : List Char) : Prop :=
  ∃ s, rules.vocabulary.predicate? call.name = some s ∧ Agreed s call.args raw

theorem withPredicate_read {name : String} {make : Call → Op} {op : Op}
    (h : withPredicate rules place name text make = accept op) :
    ∃ call, call.name = name ∧ IsPredicate rules call text ∧ op = make call := by
  unfold withPredicate at h
  split at h
  · cases h
  · rename_i s known
    split at h
    · cases h
    · dsimp only at h
      split at h
      · cases h
      · rename_i agreed
        exact ⟨⟨name, _⟩, rfl, ⟨s, known, rfl, agreed⟩, (accept_inj h).symm⟩

theorem withPredicate_source {call : Call} {raw : List Char} (steady : rules.vocabulary.Steady)
    (place : Position) (h : IsPredicate rules call raw) (make : Call → Op) :
    withPredicate rules place call.name call.args.join make = accept (make call.canonical) := by
  obtain ⟨s, known, agreed⟩ := h
  have given : ¬(call.args.join.isEmpty = true ∧ s.requiresArgs = true) := by
    rintro ⟨empty, asks⟩
    exact agreed.join_ne_nil (steady.predicate known) asks (List.isEmpty_iff.mp empty)
  rw [withPredicate, known]
  simp only [given, if_false, agreed.check_join (steady.predicate known), agreed.parse_join]
  rfl

/-- A formatter with arguments it has agreed to, as they are written after its name. -/
structure IsFormatter (rules : Rules) (call : Call) (raw : List Char) : Prop where
  name : IsWord call.name.toList
  known : ∃ s, rules.vocabulary.formatter? call.name = some s ∧ Agreed s call.args raw
  stops : Stops isWordChar raw
  inside : ∀ c ∈ raw, isArgumentChar c = true

/-- A formatter with the text of its arguments, of which there is some where it demands any. -/
structure FormatterCall (rules : Rules) (call : Call) (raw : List Char) : Prop
    extends IsFormatter rules call raw where
  given : ∀ s, rules.vocabulary.formatter? call.name = some s → s.requiresArgs = true → raw ≠ []

/-- Formatters with their arguments, each after a pipe. -/
inductive FormatterChain (rules : Rules) : List Call → List Char → Prop where
  | nil : FormatterChain rules [] []
  | cons {call : Call} {calls : List Call} {raw rest : List Char} :
      FormatterCall rules call raw → FormatterChain rules calls rest →
      FormatterChain rules (call :: calls) ('|' :: (call.name.toList ++ (raw ++ rest)))

theorem formattersSource_cons (call : Call) (calls : List Call) :
    formattersSource (call :: calls) = '|' :: (call.source ++ formattersSource calls) := rfl

theorem endsVars_formattersSource (calls : List Call) : endsVars (formattersSource calls) := by
  cases calls with
  | nil => exact .inl rfl
  | cons call calls => exact .inr ⟨_, rfl⟩

theorem readArgs_read {class' : Char → Bool} {raw : List Char} (stop : Stops class' text)
    (h : (readArgs? text).getD ([], text) = (raw, rest)) :
    Stops class' raw ∧ (∀ c ∈ raw, isArgumentChar c = true) ∧ raw ++ rest = text := by
  cases taken : readArgs? text with
  | none =>
    rw [taken] at h
    cases h
    exact ⟨.nil, by simp, rfl⟩
  | some result =>
    rw [taken] at h
    cases h
    have run := (takes_argumentsPattern.sound taken).1
    have whole := split?_append taken
    refine ⟨?_, run.2, whole⟩
    cases raw with
    | nil => exact .nil
    | cons c more => exact .cons (stop c (by rw [← whole]; rfl)) more

theorem readFormatters_step {anchor : List Char} {fuel : Nat} {calls : List Call}
    (h : readFormatters rules place anchor (fuel + 1) text = .ok (calls, rest)) :
    calls = [] ∨ ∃ call others raw left, calls = call :: others ∧ IsFormatter rules call raw ∧
      call.args = (Arguments.parse raw).accept ∧
      text = '|' :: (call.name.toList ++ (raw ++ left)) ∧
      readFormatters rules place anchor fuel left = .ok (others, rest) := by
  unfold readFormatters at h
  split at h
  · rename_i number afterPipe same
    cases same
    dsimp only at h
    split at h
    · cases h
    · rename_i word afterName named
      split at h
      · cases h
      · rename_i s known
        rcases taken : (readArgs? afterName).getD ([], afterName) with ⟨raw, left⟩
        rw [taken] at h
        split at h
        · cases h
        · dsimp only at h
          split at h
          · cases h
          · rename_i agreed
            obtain ⟨⟨others, last⟩, later, same⟩ := ok_of_map h
            cases same
            obtain ⟨isWord, stop⟩ := takes_wordPattern.sound named
            obtain ⟨stops, inside, whole⟩ := readArgs_read stop taken
            have isFormatter :
                IsFormatter rules ⟨String.ofList word, (Arguments.parse raw).accept⟩ raw :=
              ⟨by rwa [String.toList_ofList], ⟨s, known, rfl, agreed⟩, stops, inside⟩
            refine .inr ⟨_, others, raw, left, rfl, isFormatter, rfl, ?_, later⟩
            rw [String.toList_ofList, whole, split?_append named]
  · cases h
    exact .inl rfl

theorem readFormatters_read {anchor : List Char} {fuel : Nat} {calls : List Call}
    (h : readFormatters rules place anchor fuel text = .ok (calls, rest)) :
    (∀ call ∈ calls, ∃ raw, IsFormatter rules call raw) ∧
      ∀ c ∈ formattersSource calls, c ∈ text := by
  induction fuel generalizing text calls with
  | zero =>
    cases h
    exact ⟨by simp, by simp [formattersSource]⟩
  | succ fuel ih =>
    rcases readFormatters_step h with rfl |
      ⟨call, others, raw, left, rfl, first, args, rfl, later⟩
    · exact ⟨by simp, by simp [formattersSource]⟩
    · obtain ⟨formatters, chars⟩ := ih later
      refine ⟨?_, ?_⟩
      · intro other member
        rcases List.mem_cons.mp member with rfl | member
        · exact ⟨raw, first⟩
        · exact formatters other member
      · intro c member
        rw [formattersSource_cons, Call.source, args] at member
        simp only [List.mem_cons, List.mem_append] at member ⊢
        rcases member with pipe | (name | value) | further
        · exact .inl pipe
        · exact .inr (.inl name)
        · exact .inr (.inr (.inl (Arguments.mem_of_mem_join value)))
        · exact .inr (.inr (.inr (chars c further)))

theorem readFormatters_nil {anchor : List Char} {fuel : Nat}
    (h : readFormatters rules place anchor fuel text = .ok ([], rest)) : text = rest := by
  cases fuel with
  | zero =>
    cases h
    rfl
  | succ fuel =>
    unfold readFormatters at h
    split at h
    · rename_i number afterPipe same
      cases same
      dsimp only at h
      split at h
      · cases h
      · split at h
        · cases h
        · split at h
          · cases h
          · split at h
            · cases h
            · obtain ⟨result, -, same⟩ := ok_of_map h
              cases same
    · cases h
      rfl

theorem readArgs_source {raw : List Char} (inside : ∀ c ∈ raw, isArgumentChar c = true)
    (ends : endsVars rest) :
    (readArgs? (raw ++ rest)).getD ([], raw ++ rest) = (raw, rest) ∧
      ((readArgs? (raw ++ rest)).isNone = true ↔ raw = []) := by
  have stop : Stops isArgumentChar rest := by
    rcases ends with rfl | ⟨more, rfl⟩
    · exact .nil
    · exact .cons (by decide) _
  cases raw with
  | nil =>
    have none : readArgs? rest = none := takes_argumentsPattern.none stop
    simp [none]
  | cons c more =>
    have taken : readArgs? (c :: more ++ rest) = some (c :: more, rest) :=
      takes_argumentsPattern.complete ⟨List.cons_ne_nil _ _, inside⟩ stop
    rw [taken]
    exact ⟨rfl, nofun, nofun⟩

theorem FormatterChain.ends {calls : List Call} (chain : FormatterChain rules calls text) :
    endsVars text := by
  cases chain with
  | nil => exact .inl rfl
  | cons => exact .inr ⟨_, rfl⟩

theorem FormatterChain.length_le {calls : List Call} (chain : FormatterChain rules calls text) :
    calls.length ≤ text.length := by
  induction chain with
  | nil => exact Nat.le_refl _
  | cons first chain ih =>
    simp only [List.length_cons, List.length_append]
    omega

theorem split?_word {word raw : List Char} (isWord : IsWord word) (stop : Stops isWordChar raw)
    (ends : endsVars rest) : wordPattern.split? (word ++ (raw ++ rest)) = some (word, raw ++ rest) :=
  takes_wordPattern.complete isWord
    (stop.append (ends.stops.mono fun _ h => (Bool.or_eq_false_iff.mp h).1))

theorem FormatterCall.reads {anchor raw : List Char} {call : Call} (fuel : Nat)
    (h : FormatterCall rules call raw) (ends : endsVars rest) :
    readFormatters rules place anchor (fuel + 1) ('|' :: (call.name.toList ++ (raw ++ rest))) =
      (readFormatters rules place anchor fuel rest).map fun (calls, left) =>
        (call :: calls, left) := by
  obtain ⟨s, known, read', check⟩ := h.known
  obtain ⟨taken, none⟩ := readArgs_source h.inside ends
  have given : ¬(s.requiresArgs = true ∧ (readArgs? (raw ++ rest)).isNone = true) := by
    rintro ⟨asks, empty⟩
    exact h.given s known asks (none.mp empty)
  rw [readFormatters]
  simp only [split?_word h.name h.stops ends, String.ofList_toList, known, given, if_false, taken,
    check, ← read']

theorem FormatterChain.reads {anchor : List Char} {fuel : Nat} {calls : List Call}
    (chain : FormatterChain rules calls text) (enough : calls.length < fuel) :
    readFormatters rules place anchor fuel text = .ok (calls, []) := by
  induction chain generalizing fuel with
  | nil =>
    cases fuel with
    | zero => cases enough
    | succ fuel => rfl
  | cons first chain ih =>
    cases fuel with
    | zero => cases enough
    | succ fuel =>
      rw [first.reads fuel chain.ends, ih (Nat.lt_of_succ_lt_succ enough)]
      rfl

theorem IsFormatter.call {call : Call} {raw : List Char} (h : IsFormatter rules call raw)
    (steady : rules.vocabulary.Steady) : FormatterCall rules call.canonical call.args.join := by
  obtain ⟨s, known, agreed⟩ := h.known
  have steady := steady.formatter known
  refine ⟨⟨h.name, ⟨s, known, ?_, agreed.check_join steady⟩, agreed.stops h.stops,
    fun c member => h.inside c (agreed.mem member)⟩, fun other same asks => ?_⟩
  · exact agreed.parse_join.symm
  · cases known.symm.trans same
    exact agreed.join_ne_nil steady asks

theorem formatterChain_source {calls : List Call} (steady : rules.vocabulary.Steady)
    (h : ∀ call ∈ calls, ∃ raw, IsFormatter rules call raw) :
    FormatterChain rules (calls.map Call.canonical) (formattersSource calls) := by
  induction calls with
  | nil => exact .nil
  | cons call calls ih =>
    obtain ⟨raw, formatter⟩ := h call List.mem_cons_self
    have later := ih fun other member => h other (List.mem_cons_of_mem _ member)
    have whole := FormatterChain.cons (formatter.call steady) later
    rwa [← List.append_assoc] at whole

theorem withFormatters_read {anchor : List Char} {make : List Call → Op} {op : Op}
    (h : withFormatters rules place anchor text make = accept op) :
    ∃ calls, op = make calls ∧ (∀ call ∈ calls, ∃ raw, IsFormatter rules call raw) ∧
      (∀ c ∈ formattersSource calls, c ∈ text) ∧ (calls = [] → text = []) := by
  unfold withFormatters at h
  split at h
  · rename_i r failed
    obtain ⟨d, -, -, -, -, rfl⟩ := readFormatters_error failed
    exact absurd h refuse_ne_accept
  · rename_i calls taken
    obtain ⟨formatters, chars⟩ := readFormatters_read taken
    refine ⟨calls, (accept_inj h).symm, formatters, chars, ?_⟩
    rintro rfl
    exact readFormatters_nil taken
  · cases h

theorem withFormatters_source {anchor : List Char} {calls : List Call}
    (steady : rules.vocabulary.Steady) (h : ∀ call ∈ calls, ∃ raw, IsFormatter rules call raw)
    (make : List Call → Op) :
    withFormatters rules place anchor (formattersSource calls) make =
      accept (make (calls.map Call.canonical)) := by
  have chain := formatterChain_source steady h
  rw [withFormatters, chain.reads (Nat.lt_succ_of_le chain.length_le)]

/-- A binding of a word to a variable. -/
structure IsBinding (b : Binding) : Prop where
  name : IsWord b.name.toList
  var : b.var.Readable

def bindingSource (b : Binding) : List Char := b.name.toList ++ '=' :: b.var.text.toList

theorem readBindings_read {fuel : Nat} {bindings : List Binding}
    (h : readBindings fuel text = (bindings, rest)) : ∀ b ∈ bindings, IsBinding b := by
  induction fuel generalizing text bindings with
  | zero =>
    cases h
    simp
  | succ fuel ih =>
    unfold readBindings at h
    split at h
    · cases h
      simp
    · rename_i name afterSign named
      split at h
      · cases h
        simp
      · rename_i v afterVar valued
        have first : IsBinding ⟨String.ofList name, v⟩ := by
          refine ⟨?_, readVar?_readable valued⟩
          rw [String.toList_ofList]
          exact (takes_wordPattern.sound named).1
        dsimp only at h
        split at h
        · cases h
          simpa using first
        · rename_i left _
          cases h
          intro b member
          rcases List.mem_cons.mp member with rfl | member
          · exact first
          · exact ih rfl b member
    · cases h
      simp

theorem stops_tagSpace_word {word : List Char} (h : IsWord word) (rest : List Char) :
    Stops isTagSpace (word ++ rest) := by
  cases word with
  | nil => cases h
  | cons c more =>
    refine .cons ?_ _
    exact not_contains_of_class tagSpaces (by decide)
      (isWordChar_of_isLetter h.1)

theorem split?_whitespace (stop : Stops isTagSpace rest) :
    whitespace.split? (' ' :: rest) = some ([' '], rest) := by
  have space : IsRun isTagSpace [' '] := ⟨List.cons_ne_nil _ _, List.all_eq_true.mp (by decide)⟩
  exact takes_whitespace.complete space stop

theorem readBindings_step {b : Binding} (fuel : Nat) (h : IsBinding b)
    (stop : Stops isNameChar rest) :
    readBindings (fuel + 1) (bindingSource b ++ rest) =
      match whitespace.split? rest with
      | none => ([b], rest)
      | some (_, more) => (b :: (readBindings fuel more).1, (readBindings fuel more).2) := by
  have sign : Stops isWordChar ('=' :: (b.var.text.toList ++ rest)) := .cons (by decide) _
  have named := takes_wordPattern.complete h.name sign
  have written : bindingSource b ++ rest =
      b.name.toList ++ '=' :: (b.var.text.toList ++ rest) := by
    simp [bindingSource]
  rw [written, readBindings]
  cases more : whitespace.split? rest <;>
    simp only [named, readVar?_text h.var stop, String.ofList_toList, more]

theorem readBindings_source {fuel : Nat} {b : Binding} {bindings : List Binding}
    (enough : bindings.length < fuel) (first : IsBinding b) (h : ∀ b ∈ bindings, IsBinding b) :
    readBindings fuel (bindingSource b ++ bindings.flatMap fun b => ' ' :: bindingSource b) =
      (b :: bindings, []) := by
  induction bindings generalizing fuel b with
  | nil =>
    cases fuel with
    | zero => cases enough
    | succ fuel =>
      rw [List.flatMap_nil, readBindings_step fuel first .nil, takes_whitespace.none .nil]
  | cons next bindings ih =>
    cases fuel with
    | zero => cases enough
    | succ fuel =>
      have second := h next List.mem_cons_self
      have later := ih (Nat.lt_of_succ_lt_succ enough) second
        fun other member => h other (List.mem_cons_of_mem _ member)
      have stop : Stops isTagSpace (bindingSource next ++
          bindings.flatMap fun b => ' ' :: bindingSource b) := by
        rw [bindingSource, List.append_assoc]
        exact stops_tagSpace_word second.name _
      rw [List.flatMap_cons, List.cons_append, readBindings_step fuel first (.cons (by decide) _),
        split?_whitespace stop]
      simp only [later]

theorem length_bindings (b : Binding) (bindings : List Binding) :
    bindings.length <
      (bindingSource b ++ bindings.flatMap fun b => ' ' :: bindingSource b).length := by
  induction bindings with
  | nil =>
    simp only [bindingSource, List.length_append, List.length_cons, List.length_nil]
    omega
  | cons next bindings ih =>
    simp only [List.flatMap_cons, List.length_append, List.length_cons] at ih ⊢
    omega

theorem readChain_read {room : Nat} {c : Chain} (h : readChain room text = some c) :
    (∀ v ∈ c.vars, v.Readable) ∧ c.vars.length ≤ room := by
  induction room generalizing text c with
  | zero =>
    unfold readChain at h
    split at h
    · cases h
      simp
    · cases h
  | succ room ih =>
    unfold readChain at h
    split at h
    · cases h
      simp
    · rename_i v afterVar first
      dsimp only at h
      split at h
      · cases h
        refine ⟨?_, by simp⟩
        intro w member
        rw [List.mem_singleton.mp member]
        exact readVar?_readable first
      · obtain ⟨later, read, same⟩ := Option.map_eq_some_iff.mp h
        cases same
        obtain ⟨readable, short⟩ := ih read
        refine ⟨?_, Nat.succ_le_succ short⟩
        intro w member
        rcases List.mem_cons.mp member with rfl | member
        · exact readVar?_readable first
        · exact readable w member

theorem chainSource_cons {vars : List VarName} (v : VarName) (o : BoolOp) (ops : List BoolOp)
    (some' : vars ≠ []) :
    chainSource (v :: vars) (o :: ops) =
      v.text.toList ++ ' ' :: (o.symbol.toList ++ ' ' :: chainSource vars ops) := by
  cases vars with
  | nil => exact absurd rfl some'
  | cons w vars => simp [chainSource]

theorem stops_chainSource {vars : List VarName} {ops : List BoolOp}
    (h : ∀ v ∈ vars, v.Readable) (fits : vars.length = ops.length + 1) :
    Stops isTagSpace (chainSource vars ops) := by
  match vars, ops with
  | [v], _ =>
    have stop := stops_tagSpace_variable (h v List.mem_cons_self).written []
    rwa [List.append_nil] at stop
  | v :: w :: vars, o :: ops =>
    rw [chainSource_cons v o ops (List.cons_ne_nil _ _)]
    exact stops_tagSpace_variable (h v List.mem_cons_self).written _

theorem readBoolOp?_symbol (op : BoolOp) (rest : List Char) :
    readBoolOp? (op.symbol.toList ++ rest) = some (op, rest) := by
  cases op <;> rfl

theorem skipBlank_space (stop : Stops isTagSpace rest) : skipBlank (' ' :: rest) = rest := by
  have space : ∀ c ∈ [' '], isTagSpace c = true := List.all_eq_true.mp (by decide)
  exact stop.dropWhile_append space

theorem readChain_source {room : Nat} {vars : List VarName} {ops : List BoolOp}
    (h : ∀ v ∈ vars, v.Readable) (fits : vars.length = ops.length + 1)
    (short : vars.length ≤ room) :
    readChain room (chainSource vars ops) = some ⟨vars, ops, []⟩ := by
  induction vars generalizing room ops with
  | nil => cases fits
  | cons v vars ih =>
    cases room with
    | zero => cases short
    | succ room =>
      have readable := h v List.mem_cons_self
      cases ops with
      | nil =>
        have alone : vars = [] := by simpa using fits
        subst alone
        rw [chainSource, readChain, readVar?_whole readable]
        rfl
      | cons o ops =>
        have fits : vars.length = ops.length + 1 := Nat.succ.inj fits
        have others : ∀ w ∈ vars, w.Readable := fun w member => h w (List.mem_cons_of_mem _ member)
        have some' : vars ≠ [] := by
          rintro rfl
          cases fits
        have later := ih others fits (Nat.le_of_succ_le_succ short)
        have symbol : Stops isTagSpace (o.symbol.toList ++ ' ' :: chainSource vars ops) := by
          cases o <;> exact .cons (by decide) _
        rw [chainSource_cons v o ops some', readChain, readVar?_text readable (.cons (by decide) _)]
        simp only [skipBlank_space symbol, readBoolOp?_symbol,
          skipBlank_space (stops_chainSource others fits), later, Option.map_some]

end Tag

end JsonTemplate

import JsonTemplate.Proofs.Expr.NumberLiteral

namespace JsonTemplate.Expr

open JsonTemplate.Number JsonTemplate.Text JsonTemplate.Pattern

def escaped (c : Char) : List Char :=
  if c = '\\' ∨ c = '"' then ['\\', c]
  else if c = '\n' then ['\\', 'n']
  else if c = '\r' then ['\\', 'r']
  else [c]

/-- A token as it is written in a source, where the mark before the arguments of a call does not
stand. -/
def Token.written : Token → List Char
  | number x => (formatNumber x).toList
  | string s => '"' :: (s.toList.flatMap escaped ++ ['"'])
  | bool b => (if b then "true" else "false").toList
  | null => "null".toList
  | var name => name.text.toList
  | call f => f.name.toList
  | args => []
  | op o => o.symbol.toList

/-- Tokens with single spaces between them. -/
def written (tokens : List Token) : List Char := joinWith [' '] (tokens.map Token.written)

def Spaced (rest : List Char) : Prop := Stops (· != ' ') rest

theorem Spaced.stops {class' : Char → Bool} {rest : List Char} (h : Spaced rest)
    (outside : class' ' ' = false) : Stops class' rest := by
  refine h.mono fun c same => ?_
  obtain rfl : c = ' ' := by simpa using same
  exact outside

def ReadsBack (token : Token) : Prop :=
  ∀ rest, Spaced rest → readToken 0 (token.written ++ rest) = .ok (some token, rest)

section

variable {raw rest text left : List Char} {token : Token}

def isNameHead (c : Char) : Bool := c = '@' || isLetter c

theorem isNameHead_of_isVariable (h : IsVariable raw) (start : Stops Char.isDigit raw) :
    ∃ c more, raw = c :: more ∧ isNameHead c = true := by
  cases h with
  | current => exact ⟨'@', [], rfl, rfl⟩
  | path signs first rest isAtom atoms =>
    cases signs with
    | succ signs => exact ⟨'@', _, rfl, rfl⟩
    | zero =>
      obtain ⟨c, more, rfl⟩ := List.exists_cons_of_ne_nil isAtom.ne_nil
      refine ⟨c, _, rfl, ?_⟩
      rcases isAtom with word | number
      · rw [isNameHead, word.1, Bool.or_true]
      · have digit := number.2 c List.mem_cons_self
        rw [start c rfl] at digit
        cases digit

theorem readToken_name (h : IsVariable raw) (start : Stops Char.isDigit raw)
    (spaced : Spaced rest) : readToken 0 (raw ++ rest) = .ok (some (nameToken raw), rest) := by
  have named := split?_variableName h (spaced.stops (by decide))
  obtain ⟨c, more, rfl, head⟩ := isNameHead_of_isVariable h start
  have quote : ['"', '\''].contains c = false := not_contains_of_class _ (by decide) head
  have noQuote : ¬(c = '"' ∨ c = '\'') := by simpa using quote
  have operator := operatorAt?_none (not_contains_of_class _ (by decide) head) (more ++ rest)
  have blank : isBlank c = false := not_contains_of_class _ (by decide) head
  rw [List.cons_append] at named ⊢
  rw [readToken, if_neg (Bool.eq_false_iff.mp (start c rfl)), if_neg noQuote, operator]
  simp only [blank, named, Bool.false_eq_true, if_false]

theorem ReadsBack.of_name (h : IsVariable token.written) (start : Stops Char.isDigit token.written)
    (named : nameToken token.written = token) : ReadsBack token := by
  intro rest spaced
  rw [readToken_name h start spaced, named]

theorem ReadsBack.word (word : IsWord token.written) (named : nameToken token.written = token) :
    ReadsBack token := by
  have isVariable := IsVariable.path 0 _ [] (.inl word) nofun
  rw [List.replicate_zero, List.nil_append, dotted_nil, List.append_nil] at isVariable
  obtain ⟨c, more, same⟩ := List.exists_cons_of_ne_nil word.ne_nil
  refine .of_name isVariable ?_ named
  rw [same] at word ⊢
  exact .cons (isDigit_of_isLetter word.1) _

theorem not_marksHex (t : DecimalText) (spaced : Spaced rest) : ¬MarksHex (t.chars ++ rest) := by
  rintro ⟨x, more, mark, same⟩
  have scanned := scanDecimal_chars (spaced.stops (by decide)) t
  have zero : scanDecimal .initial ('0' :: x :: more) = .ok (['0'], x :: more) := by
    have stop : Stops isDecimalChar (x :: more) := by
      refine .cons ?_ _
      rcases mark with rfl | rfl <;> rfl
    rw [scanDecimal_digit rfl, scanDecimal_stops stop rfl]
    rfl
  rw [same, zero] at scanned
  obtain rfl : x :: more = rest := (Prod.mk.inj (Except.ok.inj scanned)).2
  have space : x = ' ' := by simpa using spaced x rfl
  rcases mark with rfl | rfl <;> cases space

theorem ReadsBack.number {x : Float} (h : Double.Unsigned x) : ReadsBack (.number x) := by
  rcases Double.formatNumber_cases h.isNegative h.number with ⟨rfl, text⟩ | ⟨t, text, read⟩
  · have word : (Token.number Double.infinity).written = "Infinity".toList :=
      congrArg String.toList text
    exact .word (by rw [word]; decide) (by rw [word]; rfl)
  · intro rest spaced
    rw [Token.written, text]
    exact readToken_decimal (not_marksHex t spaced) (spaced.stops (by decide)) read 0

theorem ReadsBack.constant {k : String} (h : Token.constant? k = some token) :
    ReadsBack token := by
  unfold Token.constant? at h
  split_ifs at h
  · cases h
    exact .word (by decide) rfl
  · cases h
    exact .word (by decide) rfl
  · cases h
    exact .word (by decide) rfl
  · cases h
    exact .number (by decide +kernel)
  · cases h
    exact .number (by decide +kernel)
  · cases h
    exact .number (by decide +kernel)
  · cases h
    exact .word (by decide) rfl

theorem nameToken_cases (raw : List Char) :
    nameToken raw = .var (VarName.parse raw) ∨
      ∃ k, Token.constant? k = some (nameToken raw) := by
  rw [nameToken]
  split
  · rename_i k single
    cases found : Token.constant? k with
    | none => exact .inl rfl
    | some token => exact .inr ⟨k, found⟩
  · exact .inl rfl

theorem ReadsBack.name (h : IsVariable raw) (start : Stops Char.isDigit raw) :
    ReadsBack (nameToken raw) := by
  rcases nameToken_cases raw with variable' | ⟨k, constant⟩
  · have readable := VarName.parse_readable h
    have again : nameToken (VarName.parse raw).text.toList = nameToken raw := by
      rw [nameToken, readable.read, nameToken]
    have text : (nameToken raw).written = (VarName.parse raw).text.toList := by
      rw [variable', Token.written]
    refine .of_name ?_ ?_ ?_
    · rw [text]
      exact readable.written
    · rw [text]
      exact VarName.stops_text h start
    · rw [text, again]
  · exact .constant constant

theorem escaped_ne_nil (c : Char) : escaped c ≠ [] := by
  unfold escaped
  split_ifs <;> exact List.cons_ne_nil _ _

theorem readString_escaped_cons (c : Char) (fuel : ℕ) (before rest : List Char) :
    readString '"' (fuel + 1) before (escaped c ++ rest) =
      readString '"' fuel (c :: before) rest := by
  unfold escaped
  split_ifs with self feed carriage
  · rcases self with rfl | rfl <;> rfl
  · rw [feed]
    rfl
  · rw [carriage]
    rfl
  · have plain : ¬(c = '\n' ∨ c = '\r') := fun h => h.elim feed carriage
    rw [List.singleton_append, readString]
    · rw [if_neg fun quote => self (.inr quote), if_neg plain]
    · intro d more same
      exact fun _ => self (.inl same)

theorem readString_escaped (text before rest : List Char) {fuel : ℕ}
    (room : (text.flatMap escaped).length < fuel) :
    readString '"' fuel before (text.flatMap escaped ++ '"' :: rest) =
      .ok (String.ofList (before.reverse ++ text), rest) := by
  induction text generalizing before fuel with
  | nil =>
    cases fuel with
    | zero => cases room
    | succ fuel =>
      rw [List.append_nil]
      rfl
  | cons c text ih =>
    have some' := List.length_pos_iff.mpr (escaped_ne_nil c)
    rw [List.flatMap_cons, List.length_append] at room
    cases fuel with
    | zero => omega
    | succ fuel =>
      rw [List.flatMap_cons, List.append_assoc, readString_escaped_cons, ih (c :: before) (by omega),
        List.reverse_cons, List.append_assoc]
      rfl

theorem ReadsBack.string (s : String) : ReadsBack (.string s) := by
  intro rest _
  have room : (s.toList.flatMap escaped).length <
      (s.toList.flatMap escaped ++ '"' :: rest).length + 1 := by
    rw [List.length_append]
    omega
  have read := readString_escaped s.toList [] rest room
  rw [List.reverse_nil, List.nil_append, String.ofList_toList] at read
  have start : '"'.isDigit = false := rfl
  rw [Token.written, List.cons_append, List.append_assoc, List.singleton_append, readToken,
    if_neg (Bool.eq_false_iff.mp start), if_pos (.inl rfl), read]
  rfl

theorem readToken_op {o : Operator} (found : operatorAt? text = some (o, left)) :
    readToken 0 text = .ok (some (.op o), left) := by
  obtain ⟨member, whole⟩ := operatorAt?_eq found
  obtain ⟨c, more, rfl⟩ : ∃ c more, text = c :: more := by
    refine List.exists_cons_of_ne_nil ?_
    rintro rfl
    have none' : operatorAt? [] = none := rfl
    rw [none'] at found
    cases found
  have digit : c.isDigit = false := by
    cases digit : c.isDigit with
    | false => rfl
    | true =>
      rw [operatorAt?_digit digit] at found
      cases found
  have quote : ¬(c = '"' ∨ c = '\'') := by
    rintro (rfl | rfl)
    · rw [operatorAt?_none (by decide)] at found
      cases found
    · rw [operatorAt?_none (by decide)] at found
      cases found
  rw [readToken, if_neg (Bool.eq_false_iff.mp digit), if_neg quote, found]

theorem isPrefixOf_spaced {front : List Char} (tight : ' ' ∉ front) (spaced : Spaced rest)
    (text : List Char) : front.isPrefixOf (text ++ rest) = front.isPrefixOf text := by
  induction front generalizing text with
  | nil => simp
  | cons c front ih =>
    obtain ⟨other, tight⟩ := List.ne_and_not_mem_of_not_mem_cons tight
    cases text with
    | cons d text => simp only [List.cons_append, List.isPrefixOf_cons_cons, ih tight text]
    | nil =>
      cases rest with
      | nil => rfl
      | cons d rest =>
        obtain rfl : d = ' ' := by simpa using spaced d rfl
        have apart : (c == ' ') = false := beq_false_of_ne other.symm
        rw [List.nil_append, List.isPrefixOf_cons_cons, apart, Bool.false_and]
        rfl

theorem operatorAt?_spaced {o : Operator} (member : o ∈ spellings) (spaced : Spaced rest) :
    operatorAt? (o.symbol.toList ++ rest) = some (o, rest) := by
  have tight : ∀ o ∈ spellings, ' ' ∉ o.symbol.toList := by decide
  have alone : ∀ o ∈ spellings,
      spellings.find? (·.symbol.toList.isPrefixOf o.symbol.toList) = some o := by decide
  have found : spellings.find? (·.symbol.toList.isPrefixOf (o.symbol.toList ++ rest)) = some o := by
    rw [← alone o member]
    exact List.find?_congr fun other inside => isPrefixOf_spaced (tight other inside) spaced _
  rw [operatorAt?, found, Option.map_some, ← String.length_toList, List.drop_left]

theorem ReadsBack.op {o : Operator} (member : o ∈ spellings) : ReadsBack (.op o) :=
  fun _ spaced => readToken_op (operatorAt?_spaced member spaced)

theorem Reads.readsBack (h : Reads text (some token) left) : ReadsBack token := by
  cases h with
  | hex mark some' all stop => exact .number (unsigned_hexValue some')
  | decimal plain scanned read => exact .number (unsigned_of_readDecimal? read)
  | string quote read => exact .string _
  | op found => exact .op (operatorAt?_eq found).1
  | name start some' named =>
    have whole := Recognizer.split?_append named
    rw [← whole] at start
    exact .name (of_split?_variableName named) start.front

end

/-- Tokens that were pushed one after the other, the last one first, each one read back. -/
inductive Pushed : List Token → Prop where
  | nil : Pushed []
  | push {before after : List Token} {token : Token} : Pushed before → ReadsBack token →
      push 0 before token = (after, none) → Pushed after

theorem map_written_push {before after : List Token} {token : Token}
    (h : push 0 before token = (after, none)) :
    after.map Token.written = token.written :: before.map Token.written := by
  rcases push_cases h with rfl | ⟨o, o', rfl, symbol, rfl⟩ | ⟨segment, f, rest, rfl, rfl, name, rfl⟩
  · rfl
  · rw [List.map_cons, Token.written, symbol]
    rfl
  · have call : (Token.call f).written = (Token.var (.path [segment])).written := by
      rw [Token.written, Token.written, name, VarName.text]
      simp [joinWith]
    simp only [List.map_cons, call]

theorem Lexes.pushed {before final : List Token} {text : List Char} (h : Lexes before text final)
    (pushed : Pushed before) : Pushed final := by
  induction h with
  | done => exact pushed
  | blank _ _ _ ih => exact ih pushed
  | token _ read push _ ih => exact ih (pushed.push (reads_of_readToken read).readsBack push)

theorem Pushed.lexes {tokens final : List Token} {rest : List Char} (h : Pushed tokens)
    (spaced : Spaced rest) (run : Lexes tokens rest final) :
    Lexes [] (written tokens.reverse ++ rest) final := by
  induction h generalizing rest with
  | nil => exact run
  | @push before after token earlier back pushed ih =>
    have read := back rest spaced
    have some' : token.written ++ rest ≠ [] := by
      intro none'
      rw [none', readToken] at read
      cases read
    have step : Lexes before (token.written ++ rest) final := .token some' read pushed run
    have text : written after.reverse =
        joinWith [' '] ((before.map Token.written).reverse ++ [token.written]) := by
      rw [written, List.map_reverse, map_written_push pushed, List.reverse_cons]
    -- There is no space before the first token, so the induction starts again with it.
    cases before with
    | nil =>
      rw [text]
      exact step
    | cons last before =>
      have gap : Lexes (last :: before) (' ' :: (token.written ++ rest)) final :=
        .blank (List.cons_ne_nil _ _) rfl step
      have whole := ih (.cons rfl _) gap
      rw [text, joinWith_concat _ _ (by simp)]
      rw [written, List.map_reverse] at whole
      simpa using whole

/-- The tokens of a source are the tokens of their own text, and every string is the token of its
literal. -/
theorem tokenize_written :
    (∀ source tokens, tokenize 0 source = (tokens, none) →
      tokenize 0 (written tokens) = (tokens, none)) ∧
        ∀ s : String, tokenize 0 (Token.string s).written = ([.string s], none) := by
  constructor
  · intro source tokens accepted
    have pushed := (tokenize_iff.mp accepted).pushed .nil
    have whole := pushed.lexes .nil (.done _)
    rw [List.reverse_reverse, List.append_nil] at whole
    exact tokenize_iff.mpr whole
  · intro s
    have read := ReadsBack.string s [] .nil
    rw [List.append_nil] at read
    exact tokenize_iff.mpr (.token (List.cons_ne_nil _ _) read rfl (.done _))

theorem tokenize_written_call :
    ∃ tokens, tokenize 0 "max(-1, @a.b) == 'x\\x22'".toList = (tokens, none) ∧
      tokenize 0 (written tokens) = (tokens, none) := by
  let source := "max(-1, @a.b) == 'x\\x22'".toList
  have accepted : tokenize 0 source = ((tokenize 0 source).1, none) :=
    Prod.ext rfl (by decide +kernel)
  exact ⟨_, accepted, tokenize_written.1 source _ accepted⟩

end JsonTemplate.Expr

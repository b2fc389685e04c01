import JsonTemplate.Proofs.Json.Number

namespace JsonTemplate.Json

open JsonTemplate.Number JsonTemplate.Pattern JsonTemplate.Text

/-- The texts that a string can have between its quotes. -/
inductive StringBody : List Char → List Char → Prop
  | nil : StringBody [] []
  | char {s body : List Char} (c : Char) :
      StringBody s body → StringBody (c :: s) (escapeChar c ++ body)
  | slash {s body : List Char} : StringBody s body → StringBody ('/' :: s) ('\\' :: '/' :: body)

theorem escapeChar_cases (c : Char) :
    escapeChar c = [c] ∧ c ≠ '"' ∧ c ≠ '\\' ∧ ¬c.toNat < 0x20 ∨
      ∃ escape, escapeChar c = '\\' :: escape ∧ '<' ∉ escape := by
  unfold escapeChar
  split_ifs with quote backslash b f n r t control
  iterate 7 exact .inr ⟨_, rfl, by decide⟩
  · have digit : ∀ n < 16, hexDigitChar n ≠ '<' := by decide
    refine .inr ⟨_, rfl, ?_⟩
    simp [(digit _ (by omega : c.toNat / 16 < 16)).symm,
      (digit _ (by omega : c.toNat % 16 < 16)).symm]
  · exact .inl ⟨rfl, quote, backslash, control⟩

theorem escapeChar_length (c : Char) : 0 < (escapeChar c).length := by
  rcases escapeChar_cases c with ⟨plain, -⟩ | ⟨escape, same, -⟩
  · rw [plain]
    exact Nat.zero_lt_one
  · rw [same]
    exact Nat.succ_pos _

theorem stringBody_flatMap (s : List Char) : StringBody s (s.flatMap escapeChar) := by
  induction s with
  | nil => exact .nil
  | cons c s ih => exact .char c ih

theorem takeBytes_zero (text : List Char) : takeBytes 0 text = [] := by
  cases text with
  | nil => rfl
  | cons c text => rw [takeBytes, if_neg (not_le.mpr c.utf8Size_pos)]

theorem readUnit_control {n : ℕ} (control : n < 0x20) (rest : List Char) :
    readUnit ('0' :: '0' :: hexDigitChar (n / 16) :: hexDigitChar (n % 16) :: rest) =
      .ok (n, rest) := by
  have size : ∀ n < 16, (hexDigitChar n).utf8Size = 1 := by decide
  have value : ∀ n < 16, hexDigitValue? (hexDigitChar n) = some n := by decide
  have zeroSize : '0'.utf8Size = 1 := by decide
  have zeroValue : hexDigitValue? '0' = some 0 := by decide
  have high : n / 16 < 16 := by omega
  have low : n % 16 < 16 := by omega
  have halves : n / 16 * 16 + n % 16 = n := by omega
  simp [readUnit, takeBytes, takeBytes_zero, byteLength, zeroSize, zeroValue, size _ high,
    size _ low, value _ high, value _ low, halves]

theorem readString_escapeChar (c : Char) (fuel : ℕ) (done rest : List Char) :
    readString (fuel + 1) done (escapeChar c ++ rest) = readString fuel (c :: done) rest := by
  unfold escapeChar
  split_ifs with quote backslash b f n r t control
  · rw [quote]
    rfl
  · rw [backslash]
    rfl
  · rw [b]
    rfl
  · rw [f]
    rfl
  · rw [n]
    rfl
  · rw [r]
    rfl
  · rw [t]
    rfl
  · have pair : ¬(0xdc00 ≤ c.toNat ∧ c.toNat ≤ 0xdfff) := by omega
    have single : c.toNat < 0xd800 ∨ 0xdbff < c.toNat := by omega
    simp only [List.cons_append, List.nil_append, readString, readEscape,
      readUnit_control control, bind, Except.bind, pair, single, if_true, if_false,
      Char.ofNat_toNat]
  · rw [List.singleton_append, readString, if_neg control]
    · exact quote
    · exact backslash

theorem readString_body {s body : List Char} (h : StringBody s body) {fuel : ℕ}
    (enough : body.length < fuel) (done rest : List Char) :
    readString fuel done (body ++ '"' :: rest) = .ok (String.ofList (done.reverse ++ s), rest) := by
  induction h generalizing fuel done with
  | nil =>
    cases fuel with
    | zero => cases enough
    | succ fuel => rw [List.nil_append, List.append_nil, readString]
  | @char s body c _ ih =>
    cases fuel with
    | zero => cases enough
    | succ fuel =>
      have some' := escapeChar_length c
      rw [List.length_append] at enough
      rw [List.append_assoc, readString_escapeChar, ih (by omega)]
      simp
  | @slash s body _ ih =>
    cases fuel with
    | zero => cases enough
    | succ fuel =>
      rw [List.length_cons, List.length_cons] at enough
      have escape : readEscape ('/' :: (body ++ '"' :: rest)) =
          .ok ('/', body ++ '"' :: rest) := rfl
      simp only [List.cons_append, readString, escape, bind, Except.bind]
      rw [ih (by omega)]
      simp

def Blank (text : List Char) : Prop := ∀ c ∈ text, isBlank c = true

theorem Blank.nil : Blank [] := nofun

theorem Blank.stops {a text : List Char} (h : Blank a) (stop : Stops isNumberChar text) :
    Stops isNumberChar (a ++ text) := by
  refine .append (fun c first => ?_) stop
  have blank := h c (List.mem_of_mem_head? first)
  simp only [isBlank, Bool.or_eq_true, decide_eq_true_eq] at blank
  rcases blank with ((rfl | rfl) | rfl) | rfl <;> decide

/-- The start of a value: no blank, and not the end of a list. -/
structure Begins (text : List Char) : Prop where
  blank : Stops isBlank text
  some' : text ≠ []
  last : text.head? ≠ some ']'

theorem begins_cons {c : Char} (rest : List Char) (h : isBlank c = false ∧ c ≠ ']') :
    Begins (c :: rest) :=
  ⟨.cons h.1 rest, List.cons_ne_nil c rest, by simpa using h.2⟩

theorem Begins.append {text : List Char} (h : Begins text) (rest : List Char) :
    Begins (text ++ rest) := by
  obtain ⟨c, more, rfl⟩ := List.exists_cons_of_ne_nil h.some'
  exact begins_cons _ ⟨h.blank c rfl, by simpa using h.last⟩

section

variable {a text : List Char} (blank : Blank a)

include blank

theorem skipBlank_append (stop : Stops isBlank text) : skipBlank (a ++ text) = text :=
  stop.dropWhile_append blank

theorem skipBlank_blank (text : List Char) : skipBlank (a ++ text) = skipBlank text :=
  List.dropWhile_append_of_pos blank

theorem readListEnd_last (rest : List Char) :
    readListEnd (a ++ ']' :: rest) = .ok (true, rest) := by
  rw [readListEnd, skipBlank_append blank (.cons (by rfl) rest)]
  rfl

theorem readListEnd_item (begins : Begins text) :
    readListEnd (',' :: (a ++ text)) = .ok (false, text) := by
  obtain ⟨c, more, rfl⟩ := List.exists_cons_of_ne_nil begins.some'
  have front : skipBlank (',' :: (a ++ c :: more)) = ',' :: (a ++ c :: more) := rfl
  have other : c ≠ ']' := by simpa using begins.last
  simp only [readListEnd, front, skipBlank_append blank begins.blank]
  split
  · rename_i same
    cases same
  · rename_i same
    exact absurd (List.cons.inj same).1 other
  · rfl

theorem readObjectEnd_last (rest : List Char) :
    readObjectEnd (a ++ '}' :: rest) = .ok (true, rest) := by
  rw [readObjectEnd, skipBlank_append blank (.cons (by rfl) rest)]
  rfl

theorem readObjectEnd_member (rest : List Char) :
    readObjectEnd (',' :: (a ++ '"' :: rest)) = .ok (false, rest) := by
  have front : skipBlank (',' :: (a ++ '"' :: rest)) = ',' :: (a ++ '"' :: rest) := rfl
  have quote : Stops isBlank ('"' :: rest) := .cons (by rfl) rest
  simp only [readObjectEnd, front, skipBlank_append blank quote]

theorem readValue_blank {fuel : ℕ} (some' : fuel ≠ 0) (depth : ℕ) (text : List Char) :
    readValue .standard fuel depth (a ++ text) = readValue .standard fuel depth text := by
  cases fuel with
  | zero => exact absurd rfl some'
  | succ fuel => rw [readValue, readValue, skipBlank_blank blank]

theorem readValue_array (fuel depth : ℕ) (begins : Begins text) :
    readValue .standard (fuel + 1) depth ('[' :: (a ++ text)) =
      (do
        let (items, rest) ← readItems .standard fuel (depth + 1) text
        .ok (.array items, rest)) := by
  obtain ⟨c, more, rfl⟩ := List.exists_cons_of_ne_nil begins.some'
  have front : skipBlank ('[' :: (a ++ c :: more)) = '[' :: (a ++ c :: more) := rfl
  have other : c ≠ ']' := by simpa using begins.last
  have accepts : ReadRules.standard.refuses (depth + 1) = false := rfl
  rw [readValue, front]
  simp only [accepts, Bool.false_eq_true, if_false, skipBlank_append blank begins.blank]
  split
  · rename_i same
    cases same
  · rename_i same
    exact absurd (List.cons.inj same).1 other
  · rfl

theorem readValue_object (fuel depth : ℕ) (text : List Char) :
    readValue .standard (fuel + 1) depth ('{' :: (a ++ '"' :: text)) =
      (do
        let (members, rest) ← readMembers .standard fuel (depth + 1) text
        .ok (.object (Value.ofMembers members), rest)) := by
  have front : skipBlank ('{' :: (a ++ '"' :: text)) = '{' :: (a ++ '"' :: text) := rfl
  have accepts : ReadRules.standard.refuses (depth + 1) = false := rfl
  have quote : Stops isBlank ('"' :: text) := .cons (by rfl) text
  rw [readValue, front]
  simp only [accepts, Bool.false_eq_true, if_false, skipBlank_append blank quote]

theorem readMembers_member {name : String} {body : List Char}
    (written : StringBody name.toList body) {fuel : ℕ} (some' : fuel ≠ 0) (depth : ℕ)
    (text : List Char) :
    readMembers .standard (fuel + 1) depth (body ++ '"' :: ':' :: (a ++ text)) =
      (do
        let (v, afterValue) ← readValue .standard fuel depth text
        let (ended, rest) ← readObjectEnd afterValue
        if ended then .ok ([(name, v)], rest)
        else do
          let (members, left) ← readMembers .standard fuel depth rest
          .ok ((name, v) :: members, left)) := by
  have enough : body.length < (body ++ '"' :: ':' :: (a ++ text)).length + 1 := by
    rw [List.length_append]
    omega
  have colon : readColon (':' :: (a ++ text)) = .ok ((), a ++ text) := rfl
  rw [readMembers, readString_body written enough, List.reverse_nil, List.nil_append,
    String.ofList_toList]
  simp only [bind, Except.bind, colon, readValue_blank blank some']

end

namespace Value

variable {name : String} {value : Value} {members : List (String × Value)}

theorem insert_new (new : name ∉ members.map Prod.fst) :
    insert name value members = members ++ [(name, value)] := by
  induction members with
  | nil => rfl
  | cons member members ih =>
    obtain ⟨key, old⟩ := member
    rw [List.map_cons] at new
    obtain ⟨other, new⟩ := List.ne_and_not_mem_of_not_mem_cons new
    rw [insert, if_neg other.symm, ih new, List.cons_append]

theorem ofMembers_distinct (distinct : (members.map Prod.fst).Nodup) :
    ofMembers members = members := by
  induction members using List.reverseRecOn with
  | nil => rfl
  | append_singleton members member ih =>
    rw [List.map_append, List.nodup_append] at distinct
    have new : member.1 ∉ members.map Prod.fst := fun inside =>
      distinct.2.2 _ inside _ List.mem_cons_self rfl
    rw [ofMembers, List.foldl_append, ← ofMembers, ih distinct.1]
    exact insert_new new

end Value

/-- What a text can stand for: a value, the items of a list or the members of an object. -/
inductive Part
  | value (v : Value)
  | items (items : List Value)
  | members (members : List (String × Value))

/-- The texts of values. Those of items and of members go up to the end of the list or object, which
they include; those of members start behind the first quote. -/
inductive Spells : Part → List Char → Prop
  | null : Spells (.value .null) ['n', 'u', 'l', 'l']
  | true' : Spells (.value (.bool true)) ['t', 'r', 'u', 'e']
  | false' : Spells (.value (.bool false)) ['f', 'a', 'l', 's', 'e']
  | number {n : Num} : n.IsJson → Spells (.value (.number n)) n.json
  | string {s : String} {body : List Char} : StringBody s.toList body →
      Spells (.value (.string s)) ('"' :: (body ++ ['"']))
  | emptyArray : Spells (.value (.array [])) ['[', ']']
  | array {items : List Value} {text a : List Char} : Blank a → Spells (.items items) text →
      Spells (.value (.array items)) ('[' :: (a ++ text))
  | emptyObject : Spells (.value (.object [])) ['{', '}']
  | object {members : List (String × Value)} {text a : List Char} : Blank a →
      (members.map Prod.fst).Nodup → Spells (.members members) text →
      Spells (.value (.object members)) ('{' :: (a ++ '"' :: text))
  | lastItem {v : Value} {text a : List Char} : Blank a → Spells (.value v) text →
      Spells (.items [v]) (text ++ (a ++ [']']))
  | item {v : Value} {items : List Value} {text more a : List Char} : Blank a →
      Spells (.value v) text → Spells (.items items) more →
      Spells (.items (v :: items)) (text ++ ',' :: (a ++ more))
  | lastMember {name : String} {v : Value} {body text a b : List Char} : Blank a → Blank b →
      StringBody name.toList body → Spells (.value v) text →
      Spells (.members [(name, v)]) (body ++ '"' :: ':' :: (a ++ (text ++ (b ++ ['}']))))
  | member {name : String} {v : Value} {members : List (String × Value)}
      {body text more a b : List Char} : Blank a → Blank b → StringBody name.toList body →
      Spells (.value v) text → Spells (.members members) more →
      Spells (.members ((name, v) :: members))
        (body ++ '"' :: ':' :: (a ++ (text ++ ',' :: (b ++ '"' :: more))))

def Part.Reads (text : List Char) : Part → Prop
  | .value v => Begins text ∧ ∀ fuel depth rest, 2 * text.length ≤ fuel → Stops isNumberChar rest →
      readValue .standard fuel depth (text ++ rest) = .ok (v, rest)
  | .items vs => Begins text ∧ ∀ fuel depth rest, 2 * text.length ≤ fuel →
      readItems .standard fuel depth (text ++ rest) = .ok (vs, rest)
  | .members ms => ∀ fuel depth rest, 2 * text.length ≤ fuel →
      readMembers .standard fuel depth (text ++ rest) = .ok (ms, rest)

theorem Part.reads_value {v : Value} {text : List Char} {c : Char} {more : List Char}
    (start : isBlank c = false ∧ c ≠ ']') (same : text = c :: more)
    (read : ∀ fuel depth rest, 2 * text.length ≤ fuel + 1 → Stops isNumberChar rest →
      readValue .standard (fuel + 1) depth (text ++ rest) = .ok (v, rest)) :
    (Part.value v).Reads text := by
  refine ⟨same ▸ begins_cons more start, fun fuel depth rest enough stop => ?_⟩
  cases fuel with
  | zero => simp [same] at enough
  | succ fuel => exact read fuel depth rest enough stop

namespace Part

theorem reads_number {n : Num} (json : n.IsJson) : (value (.number n)).Reads n.json := by
  obtain ⟨c, more, same, first⟩ := json_cons json
  refine reads_value ?_ same fun fuel depth rest _ stop => readValue_json json stop fuel depth
  rcases first with rfl | digit
  · decide
  · exact ⟨isBlank_digit digit, digit_ne digit rfl⟩

theorem reads_string {s : String} {body : List Char} (written : StringBody s.toList body) :
    (value (.string s)).Reads ('"' :: (body ++ ['"'])) := by
  refine reads_value (by decide) rfl fun fuel depth rest _ _ => ?_
  have front : skipBlank ('"' :: (body ++ '"' :: rest)) = '"' :: (body ++ '"' :: rest) := rfl
  have enough : body.length < (body ++ '"' :: rest).length + 1 := by
    rw [List.length_append]
    omega
  simp only [List.cons_append, List.append_assoc, List.nil_append, readValue, front,
    readString_body written enough, bind, Except.bind, List.reverse_nil, String.ofList_toList]

section

variable {text more a b : List Char} (blank : Blank a)

include blank

theorem reads_array {vs : List Value} (h : (items vs).Reads text) :
    (value (.array vs)).Reads ('[' :: (a ++ text)) := by
  obtain ⟨begins, read⟩ := h
  refine reads_value (by decide) rfl fun fuel depth rest enough _ => ?_
  have enough : 2 * text.length ≤ fuel := by
    simp only [List.length_cons, List.length_append] at enough
    omega
  rw [List.cons_append, List.append_assoc, readValue_array blank _ _ (begins.append rest),
    read fuel _ rest enough]
  rfl

theorem reads_object {ms : List (String × Value)} (distinct : (ms.map Prod.fst).Nodup)
    (read : (members ms).Reads text) :
    (value (.object ms)).Reads ('{' :: (a ++ '"' :: text)) := by
  refine reads_value (by decide) rfl fun fuel depth rest enough _ => ?_
  have enough : 2 * text.length ≤ fuel := by
    simp only [List.length_cons, List.length_append] at enough
    omega
  rw [List.cons_append, List.append_assoc, List.cons_append, readValue_object blank,
    read fuel _ rest enough]
  simp only [bind, Except.bind, Value.ofMembers_distinct distinct]

theorem reads_lastItem {v : Value} (h : (value v).Reads text) :
    (items [v]).Reads (text ++ (a ++ [']'])) := by
  obtain ⟨begins, read⟩ := h
  refine ⟨begins.append _, fun fuel depth rest enough => ?_⟩
  simp only [List.length_append, List.length_singleton] at enough
  cases fuel with
  | zero => omega
  | succ fuel =>
    have stop : Stops isNumberChar (a ++ ']' :: rest) := blank.stops (.cons (by rfl) rest)
    rw [List.append_assoc, List.append_assoc, List.singleton_append, readItems,
      read fuel depth _ (by omega) stop]
    simp only [bind, Except.bind, readListEnd_last blank, if_true]

theorem reads_item {v : Value} {vs : List Value} (h : (value v).Reads text)
    (later : (items vs).Reads more) : (items (v :: vs)).Reads (text ++ ',' :: (a ++ more)) := by
  obtain ⟨begins, read⟩ := h
  obtain ⟨beginsMore, readMore⟩ := later
  refine ⟨begins.append _, fun fuel depth rest enough => ?_⟩
  simp only [List.length_cons, List.length_append] at enough
  cases fuel with
  | zero => omega
  | succ fuel =>
    have stop : Stops isNumberChar (',' :: (a ++ (more ++ rest))) := .cons (by rfl) _
    rw [List.append_assoc, List.cons_append, List.append_assoc, readItems,
      read fuel depth _ (by omega) stop]
    simp only [bind, Except.bind, readListEnd_item blank (beginsMore.append rest),
      Bool.false_eq_true, if_false, readMore fuel depth rest (by omega)]

variable (blank' : Blank b) {name : String} {body : List Char}
  (written : StringBody name.toList body)

include blank' written

theorem reads_lastMember {v : Value} (h : (value v).Reads text) :
    (members [(name, v)]).Reads (body ++ '"' :: ':' :: (a ++ (text ++ (b ++ ['}'])))) := by
  obtain ⟨begins, read⟩ := h
  intro fuel depth rest enough
  have some' := List.length_pos_iff.mpr begins.some'
  simp only [List.length_cons, List.length_append, List.length_nil] at enough
  cases fuel with
  | zero => omega
  | succ fuel =>
    have stop : Stops isNumberChar (b ++ '}' :: rest) := blank'.stops (.cons (by rfl) rest)
    simp only [List.append_assoc, List.cons_append, List.nil_append]
    rw [readMembers_member blank written (by omega), read fuel depth _ (by omega) stop]
    simp only [bind, Except.bind, readObjectEnd_last blank', if_true]

theorem reads_member {v : Value} {ms : List (String × Value)} (h : (value v).Reads text)
    (readMore : (members ms).Reads more) :
    (members ((name, v) :: ms)).Reads
      (body ++ '"' :: ':' :: (a ++ (text ++ ',' :: (b ++ '"' :: more)))) := by
  obtain ⟨begins, read⟩ := h
  intro fuel depth rest enough
  have some' := List.length_pos_iff.mpr begins.some'
  simp only [List.length_cons, List.length_append] at enough
  cases fuel with
  | zero => omega
  | succ fuel =>
    have stop : Stops isNumberChar (',' :: (b ++ '"' :: (more ++ rest))) := .cons (by rfl) _
    simp only [List.append_assoc, List.cons_append]
    rw [readMembers_member blank written (by omega), read fuel depth _ (by omega) stop]
    simp only [bind, Except.bind, readObjectEnd_member blank', Bool.false_eq_true, if_false,
      readMore fuel depth rest (by omega)]

end

end Part

theorem Spells.reads {part : Part} {text : List Char} (h : Spells part text) : part.Reads text := by
  -- Along the grammar. Each step takes one from the fuel, and what it reads next is shorter by a
  -- bracket, a comma or a quote at least, so twice the length stays enough.
  induction h with
  | null | true' | false' | emptyArray | emptyObject =>
    exact Part.reads_value (by decide) rfl fun fuel depth rest _ _ => rfl
  | number json => exact Part.reads_number json
  | string written => exact Part.reads_string written
  | array blank _ read => exact Part.reads_array blank read
  | object blank distinct _ read => exact Part.reads_object blank distinct read
  | lastItem blank _ read => exact Part.reads_lastItem blank read
  | item blank _ _ read later => exact Part.reads_item blank read later
  | lastMember blank blank' written _ read =>
    exact Part.reads_lastMember blank blank' written read
  | member blank blank' written _ _ read later =>
    exact Part.reads_member blank blank' written read later

theorem Spells.read {v : Value} {text : List Char} (h : Spells (.value v) text) :
    Value.read .standard text = .ok v := by
  have read := h.reads.2 (2 * text.length + 2) 0 [] (by omega) .nil
  rw [List.append_nil] at read
  rw [Value.read, read]
  rfl

end JsonTemplate.Json

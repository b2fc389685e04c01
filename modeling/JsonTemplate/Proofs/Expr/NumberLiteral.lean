import JsonTemplate.Proofs.Expr.Lexer

namespace JsonTemplate.Expr

open JsonTemplate.Number JsonTemplate.Text JsonTemplate.Pattern

/-- A literal and its number. -/
inductive IsLiteral : List Char → Float → Prop where
  | hex {x : Char} {digits : List Char} : x = 'x' ∨ x = 'X' → digits ≠ [] →
      (∀ c ∈ digits, isHexDigit c = true) → IsLiteral ('0' :: x :: digits) (hexValue digits)
  | decimal {t : DecimalText} {r : Float} : ¬MarksHex t.chars → readDecimal? t.chars = some r →
      IsLiteral t.chars r

section

variable {c : Char} {rest left text : List Char} {token : Option Token} {r : Float}

theorem operatorAt?_digit (digit : c.isDigit = true) (rest : List Char) :
    operatorAt? (c :: rest) = none :=
  operatorAt?_none (not_contains_of_class _ (by decide) digit) rest

theorem isBlank_digit (digit : c.isDigit = true) : isBlank c = false :=
  not_contains_of_class _ (by decide) digit

theorem Reads.number (h : Reads (c :: rest) token left) (digit : c.isDigit = true) :
    ∃ r, token = some (.number r) ∧ Double.Unsigned r ∧ (left = [] → IsLiteral (c :: rest) r) := by
  generalize whole : c :: rest = text at h
  cases h with
  | done => cases whole
  | hex mark some' all stop =>
    refine ⟨_, rfl, unsigned_hexValue some', ?_⟩
    rintro rfl
    rw [List.append_nil]
    exact .hex mark some' all
  | @decimal t left r plain scanned read =>
    refine ⟨r, rfl, unsigned_of_readDecimal? read, ?_⟩
    rintro rfl
    rw [List.append_nil] at plain ⊢
    exact .decimal plain read
  | string quote =>
    cases whole
    rcases quote with rfl | rfl <;> cases digit
  | op found =>
    rw [← whole, operatorAt?_digit digit rest] at found
    cases found
  | blank blank =>
    cases whole
    rw [isBlank_digit digit] at blank
    cases blank
  | name stop =>
    rw [← whole] at stop
    rw [stop c rfl] at digit
    cases digit

theorem IsLiteral.unsigned (h : IsLiteral text r) : Double.Unsigned r := by
  cases h with
  | hex mark some' => exact unsigned_hexValue some'
  | decimal plain read => exact unsigned_of_readDecimal? read

theorem decimalText_starts (t : DecimalText) (rest : List Char) :
    ∃ c more, t.chars ++ rest = c :: more ∧ c.isDigit = true := by
  obtain ⟨c, whole, same⟩ := List.exists_cons_of_ne_nil t.some'
  refine ⟨c, _, by rw [DecimalText.chars, same, List.cons_append, List.cons_append], ?_⟩
  exact t.isDigit c (same ▸ List.mem_cons_self)

theorem IsLiteral.starts (h : IsLiteral text r) : ∃ c rest, text = c :: rest ∧ c.isDigit = true := by
  cases h with
  | hex => exact ⟨'0', _, rfl, rfl⟩
  | @decimal t =>
    have starts := decimalText_starts t []
    rwa [List.append_nil] at starts

theorem IsLiteral.stringToNumber_signed {signed : List Char} {negative : Bool}
    (h : IsLiteral text r) (sign : splitSign signed = (negative, text)) (some' : signed ≠ []) :
    stringToNumber signed = (if negative then -1 else 1) * r := by
  obtain ⟨s, more, rfl⟩ := List.exists_cons_of_ne_nil some'
  obtain ⟨c, rest, same, digit⟩ := h.starts
  have hex : MarksHex (c :: rest) ↔ _ := marksHex_iff
  rw [← same] at hex
  simp only [stringToNumber, sign, same]
  cases h with
  | @hex x digits mark some' all =>
    have marked : MarksHex ('0' :: x :: digits) := ⟨x, digits, mark, rfl⟩
    have all' : digits.all isHexDigit = true := List.all_eq_true.mpr all
    rw [if_pos (hex.mp marked)]
    obtain ⟨rfl, rfl⟩ := List.cons.inj same
    simp only [List.drop_succ_cons, List.drop_zero, all', if_true]
  | @decimal t r plain read =>
    have scanned := scanDecimal_chars .nil t
    rw [List.append_nil] at scanned
    rw [if_neg (hex.not.mp plain), if_pos digit, ← same, scanned]
    simp only [read]

theorem IsLiteral.stringToNumber_eq (h : IsLiteral text r) :
    stringToNumber text = r ∧ stringToNumber ('+' :: text) = r ∧
      stringToNumber ('-' :: text) = -r := by
  obtain ⟨c, rest, rfl, digit⟩ := h.starts
  have plain : splitSign ('+' :: c :: rest) = (false, c :: rest) := rfl
  have minus : splitSign ('-' :: c :: rest) = (true, c :: rest) := rfl
  refine ⟨?_, ?_, ?_⟩
  · exact (h.stringToNumber_signed (splitSign_digit digit rest) nofun).trans (Double.one_mul r)
  · exact (h.stringToNumber_signed plain nofun).trans (Double.one_mul r)
  · exact (h.stringToNumber_signed minus nofun).trans (Double.neg_one_mul r)

theorem isLiteral_of_stringToNumber (digit : c.isDigit = true)
    (h : (stringToNumber (c :: rest)).isNaN = false) : ∃ r, IsLiteral (c :: rest) r := by
  have undefined : Double.nan.isNaN = true := by rw [Double.isNaN_eq]; exact decide_eq_true rfl
  simp only [stringToNumber, splitSign_digit digit, digit, if_true] at h
  by_cases hex : MarksHex (c :: rest)
  · rw [if_pos (marksHex_iff.mp hex)] at h
    obtain ⟨x, digits, mark, same⟩ := hex
    obtain ⟨rfl, rfl⟩ := List.cons.inj same
    rw [List.drop_one, List.tail_cons] at h
    split at h
    · rename_i all
      have some' : digits ≠ [] := by
        rintro rfl
        have product : 1 * hexValue [] = Double.nan := Double.one_mul _
        simp only [Bool.false_eq_true, if_false, product, undefined] at h
        cases h
      exact ⟨_, .hex mark some' (List.all_eq_true.mp all)⟩
    · rw [undefined] at h
      cases h
  · rw [if_neg (marksHex_iff.not.mp hex)] at h
    split at h
    · rename_i taken scanned
      obtain ⟨t, rfl⟩ := scanDecimal_initial digit scanned
      have whole := scanDecimal_append scanned
      rw [List.append_nil] at whole
      obtain ⟨r, read, -⟩ := unsigned_readDecimal? t
      rw [← whole] at hex ⊢
      exact ⟨r, .decimal hex read⟩
    · rw [undefined] at h
      cases h

theorem readToken_decimal {t : DecimalText} (plain : ¬MarksHex (t.chars ++ rest))
    (stop : Stops isDecimalChar rest) (read : readDecimal? t.chars = some r) (size : ℕ) :
    readToken size (t.chars ++ rest) = .ok (some (.number r), rest) := by
  obtain ⟨c, more, same, digit⟩ := decimalText_starts t rest
  have scanned := scanDecimal_chars stop t
  rw [same] at plain scanned ⊢
  rw [readToken, if_pos digit, if_neg (marksHex_iff.not.mp plain), scanned]
  simp only [read, Option.getD_some]

theorem IsLiteral.readToken_eq (h : IsLiteral text r) (size : ℕ) :
    readToken size text = .ok (some (.number r), []) := by
  cases h with
  | @hex x digits mark some' all =>
    have marked : MarksHex ('0' :: x :: digits) := ⟨x, digits, mark, rfl⟩
    have taken : digits.takeWhile isHexDigit = digits := List.takeWhile_eq_self_iff.mpr all
    have left : digits.dropWhile isHexDigit = [] := List.dropWhile_eq_nil_iff.mpr all
    have full : digits.isEmpty = false := List.isEmpty_eq_false_iff.mpr some'
    have zero : '0'.isDigit = true := rfl
    rw [readToken, if_pos zero, if_pos (marksHex_iff.mp marked)]
    simp only [List.drop_one, List.tail_cons, taken, left, full, Bool.false_eq_true, if_false]
  | @decimal t r plain read =>
    have whole := readToken_decimal (by rwa [List.append_nil]) .nil read size
    rwa [List.append_nil] at whole

theorem isLiteral_of_lexes (digit : c.isDigit = true) (tight : ∀ d ∈ rest, isBlank d = false)
    (h : Lexes [] (c :: rest) [.number r]) : IsLiteral (c :: rest) r := by
  cases h with
  | blank some' read =>
    obtain ⟨r, none', -⟩ := (reads_of_readToken read).number digit
    cases none'
  | @token _ _ _ token _ left some' read pushed run =>
    have reads := reads_of_readToken read
    obtain ⟨r', number, unsigned, literal⟩ := reads.number digit
    cases number
    cases pushed
    obtain ⟨front, full, whole⟩ := reads.split some'
    cases run with
    | done => exact literal rfl
    | @blank _ _ _ left' some'' read' =>
      obtain ⟨d, more, rfl⟩ := List.exists_cons_of_ne_nil some''
      have blank := (reads_of_readToken read').blank_of_none
      obtain ⟨first, front, rfl⟩ := List.exists_cons_of_ne_nil full
      have inside : d ∈ rest := by
        rw [← (List.cons.inj whole).2]
        exact List.mem_append_right _ List.mem_cons_self
      rw [tight d inside] at blank
      cases blank
    | token some'' read' pushed' run' =>
      have longer := run'.length_le
      rw [length_push pushed'] at longer
      simp at longer

theorem tokenize_literal (digit : c.isDigit = true) (tight : ∀ d ∈ rest, isBlank d = false) :
    tokenize 0 (c :: rest) = ([.number r], none) ↔ IsLiteral (c :: rest) r := by
  rw [tokenize_iff]
  refine ⟨isLiteral_of_lexes digit tight, fun literal => ?_⟩
  exact .token nofun (literal.readToken_eq 0) rfl (.done _)

end

/-- What holds of a text that starts with a digit: how it is taken apart, and what it is as a whole
if there is no white space in it. -/
structure ReadsAlike (text : List Char) : Prop where
  decimal : ∀ taken left, scanDecimal .initial text = .ok (taken, left) →
    (readDecimal? taken).isSome = true
  number : ∀ size r left, readToken size text = .ok (some (.number r), left) → r.isNaN = false
  single : (∀ d ∈ text, isBlank d = false) →
    ((∃ r, tokenize 0 text = ([.number r], none)) ↔ (stringToNumber text).isNaN = false)
  whole : (∀ d ∈ text, isBlank d = false) → ∀ r, tokenize 0 text = ([.number r], none) →
    stringToNumber text = r ∧ stringToNumber ('+' :: text) = r ∧
      stringToNumber ('-' :: text) = -r

/-- Literals and whole texts are read alike. -/
theorem literal_readsAlike {c : Char} (digit : c.isDigit = true) (rest : List Char) :
    ReadsAlike (c :: rest) where
  decimal taken left scanned := by
    obtain ⟨t, rfl⟩ := scanDecimal_initial digit scanned
    obtain ⟨r, read, -⟩ := unsigned_readDecimal? t
    rw [read, Option.isSome_some]
  number size r left read := by
    obtain ⟨r', number, unsigned, -⟩ := (reads_of_readToken read).number digit
    cases number
    exact unsigned.isNaN
  single tight := by
    have behind : ∀ d ∈ rest, isBlank d = false := fun d member => tight d (.tail _ member)
    simp only [tokenize_literal digit behind]
    constructor
    · rintro ⟨r, literal⟩
      rw [literal.stringToNumber_eq.1]
      exact literal.unsigned.isNaN
    · exact isLiteral_of_stringToNumber digit
  whole tight r single := by
    have behind : ∀ d ∈ rest, isBlank d = false := fun d member => tight d (.tail _ member)
    exact ((tokenize_literal digit behind).mp single).stringToNumber_eq

theorem literal_readsAlike_exponent :
    ∃ r, tokenize 0 "12.5e3".toList = ([.number r], none) ∧
      stringToNumber "-12.5e3".toList = -r := by
  have alike : ReadsAlike "12.5e3".toList := literal_readsAlike (c := '1') rfl "2.5e3".toList
  have clear : "12.5e3".toList.all (!isBlank ·) = true := by decide
  have tight : ∀ d ∈ "12.5e3".toList, isBlank d = false :=
    fun d member => by simpa using List.all_eq_true.mp clear d member
  obtain ⟨r, single⟩ := (alike.single tight).mpr (by decide +kernel)
  exact ⟨r, single, (alike.whole tight r single).2.2⟩

end JsonTemplate.Expr

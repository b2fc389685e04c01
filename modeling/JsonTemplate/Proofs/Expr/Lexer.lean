import JsonTemplate.Proofs.Expr.Decimal

namespace JsonTemplate.Expr

open JsonTemplate.Number JsonTemplate.Text JsonTemplate.Pattern

def MarksHex (text : List Char) : Prop :=
  ∃ x rest, (x = 'x' ∨ x = 'X') ∧ text = '0' :: x :: rest

/-- What is read off the front of a text, by what the text starts with. -/
inductive Reads : List Char → Option Token → List Char → Prop where
  | done : Reads [] none []
  | hex {x : Char} {digits left : List Char} : x = 'x' ∨ x = 'X' → digits ≠ [] →
      (∀ c ∈ digits, isHexDigit c = true) → Stops isHexDigit left →
        Reads ('0' :: x :: (digits ++ left)) (some (.number (hexValue digits))) left
  | decimal {t : DecimalText} {left : List Char} {r : Float} : ¬MarksHex (t.chars ++ left) →
      scanDecimal .initial (t.chars ++ left) = .ok (t.chars, left) →
        readDecimal? t.chars = some r → Reads (t.chars ++ left) (some (.number r)) left
  | string {quote : Char} {rest left : List Char} {s : String} : quote = '"' ∨ quote = '\'' →
      readString quote (rest.length + 1) [] rest = .ok (s, left) →
        Reads (quote :: rest) (some (.string s)) left
  | op {text left : List Char} {o : Operator} : operatorAt? text = some (o, left) →
      Reads text (some (.op o)) left
  | blank {c : Char} {rest : List Char} : isBlank c = true → Reads (c :: rest) none rest
  | name {text name left : List Char} : Stops Char.isDigit text → name ≠ [] →
      variableName.split? text = some (name, left) → Reads text (some (nameToken name)) left

section

variable {size : ℕ} {text left : List Char} {token : Option Token}

theorem marksHex_iff {c : Char} {rest : List Char} :
    MarksHex (c :: rest) ↔ c = '0' ∧ (rest.head? = some 'x' ∨ rest.head? = some 'X') := by
  constructor
  · rintro ⟨x, more, mark, same⟩
    cases same
    exact ⟨rfl, mark.imp (congrArg some) (congrArg some)⟩
  · rintro ⟨rfl, mark | mark⟩ <;> obtain ⟨more, rfl⟩ := List.head?_eq_some_iff.mp mark
    · exact ⟨'x', more, .inl rfl, rfl⟩
    · exact ⟨'X', more, .inr rfl, rfl⟩

theorem reads_of_digit {c : Char} {rest : List Char} (digit : c.isDigit = true)
    (h : readToken size (c :: rest) = .ok (token, left)) : Reads (c :: rest) token left := by
  rw [readToken, if_pos digit] at h
  by_cases hex : MarksHex (c :: rest)
  · rw [if_pos (marksHex_iff.mp hex)] at h
    obtain ⟨x, body, mark, same⟩ := hex
    obtain ⟨rfl, rfl⟩ := List.cons.inj same
    have body' : (x :: body).drop 1 = body := rfl
    simp only [body'] at h
    split at h
    · cases h
    · rename_i some'
      cases h
      have whole : body.takeWhile isHexDigit ++ body.dropWhile isHexDigit = body :=
        List.takeWhile_append_dropWhile
      have read := Reads.hex mark (List.isEmpty_eq_false_iff.mp (Bool.not_eq_true _ ▸ some'))
        (fun _ member => List.mem_takeWhile_imp member) (stops_dropWhile body)
      rwa [whole] at read
  · rw [if_neg (marksHex_iff.not.mp hex)] at h
    split at h
    · rename_i taken left' scanned
      cases h
      obtain ⟨t, rfl⟩ := scanDecimal_initial digit scanned
      obtain ⟨r, read, -⟩ := unsigned_readDecimal? t
      have whole := scanDecimal_append scanned
      rw [← whole] at hex scanned
      rw [read, ← whole]
      exact .decimal hex scanned read
    · cases h

theorem reads_of_readToken (h : readToken size text = .ok (token, left)) :
    Reads text token left := by
  cases text with
  | nil =>
    cases h
    exact .done
  | cons c rest =>
    by_cases digit : c.isDigit = true
    · exact reads_of_digit digit h
    · rw [readToken, if_neg digit] at h
      by_cases quote : c = '"' ∨ c = '\''
      · rw [if_pos quote] at h
        obtain ⟨⟨s, left⟩, read, same⟩ := ok_of_map h
        cases same
        exact .string quote read
      · rw [if_neg quote] at h
        split at h
        · rename_i o left' found
          cases h
          exact .op found
        · by_cases blank : isBlank c = true
          · rw [if_pos blank] at h
            cases h
            exact .blank blank
          · rw [if_neg blank] at h
            split at h
            · rename_i d name left' named
              cases h
              exact .name (.cons (Bool.not_eq_true _ ▸ digit) rest) (List.cons_ne_nil _ _) named
            · cases h

theorem escapeDigits?_suffix {count : ℕ} {d : Char} {rest left : List Char}
    (h : escapeDigits? count rest = some (d, left)) : left <:+ rest := by
  rw [escapeDigits?] at h
  split_ifs at h
  cases h
  exact List.drop_suffix _ _

theorem readEscape_suffix {c d : Char} {rest left : List Char}
    (h : readEscape c rest = .ok (d, left)) : left <:+ rest := by
  have itself {e : Char} (h : Except.ok (e, rest) = (.ok (d, left) : Except LexError _)) :
      left <:+ rest := by
    cases h
    exact List.suffix_rfl
  unfold readEscape at h
  split_ifs at h
  · exact itself h
  · exact itself h
  · exact itself h
  · exact itself h
  · split at h
    · cases h
    · rename_i found
      cases h
      exact escapeDigits?_suffix found
    · cases h
  · split at h
    · rename_i found
      cases h
      exact escapeDigits?_suffix found
    · cases h
  · split at h
    · rename_i found
      cases h
      exact escapeDigits?_suffix found
    · cases h
  · exact itself h

theorem readString_suffix {quote : Char} {fuel : ℕ} {before text left : List Char} {s : String}
    (h : readString quote fuel before text = .ok (s, left)) : left <:+ text := by
  fun_induction readString quote fuel before text with
  | case1 => cases h
  | case2 => cases h
  | case3 fuel before c rest ih =>
    cases escape : readEscape c rest with
    | error e =>
      rw [escape] at h
      cases h
    | ok found =>
      rw [escape] at h
      have inner : left <:+ rest := (ih _ _ h).trans (readEscape_suffix escape)
      exact inner.trans ((List.suffix_cons _ _).trans (List.suffix_cons _ _))
  | case4 =>
    cases h
    exact List.suffix_cons _ _
  | case5 => cases h
  | case6 fuel before c rest _ _ _ ih => exact (ih h).trans (List.suffix_cons _ _)

theorem Operator.symbol_ne_nil (o : Operator) : o.symbol.toList ≠ [] := by
  cases o <;> decide

theorem operatorAt?_eq {o : Operator} (h : operatorAt? text = some (o, left)) :
    o ∈ spellings ∧ o.symbol.toList ++ left = text := by
  obtain ⟨p, found, same⟩ := Option.map_eq_some_iff.mp h
  cases same
  have leads := List.find?_some found
  obtain ⟨more, rfl⟩ := List.isPrefixOf_iff_prefix.mp leads
  refine ⟨List.mem_of_find?_eq_some found, ?_⟩
  rw [← String.length_toList, List.drop_left]

def operatorHeads : List Char := spellings.filterMap (·.symbol.toList.head?)

theorem operatorAt?_none {c : Char} (outside : operatorHeads.contains c = false)
    (rest : List Char) : operatorAt? (c :: rest) = none := by
  cases found : operatorAt? (c :: rest) with
  | none => rfl
  | some taken =>
    obtain ⟨o, left⟩ := taken
    obtain ⟨member, whole⟩ := operatorAt?_eq found
    obtain ⟨d, more, same⟩ := List.exists_cons_of_ne_nil o.symbol_ne_nil
    rw [same] at whole
    have first : o.symbol.toList.head? = some c := by
      rw [same, (List.cons.inj whole).1, List.head?_cons]
    have inside : c ∈ operatorHeads := List.mem_filterMap.mpr ⟨o, member, first⟩
    rw [List.contains_iff_mem.mpr inside] at outside
    cases outside

theorem Reads.split (h : Reads text token left) (some' : text ≠ []) :
    ∃ front, front ≠ [] ∧ front ++ left = text := by
  cases h with
  | done => exact absurd rfl some'
  | hex mark digits all stop => exact ⟨'0' :: _ :: _, nofun, rfl⟩
  | @decimal t =>
    exact ⟨t.chars, fun none => t.some' (List.append_eq_nil_iff.mp none).1, rfl⟩
  | string quote read =>
    obtain ⟨front, same⟩ := readString_suffix read
    exact ⟨_ :: front, nofun, congrArg _ same⟩
  | op found =>
    obtain ⟨-, whole⟩ := operatorAt?_eq found
    exact ⟨_, Operator.symbol_ne_nil _, whole⟩
  | blank => exact ⟨[_], nofun, rfl⟩
  | name stop some' named => exact ⟨_, some', Recognizer.split?_append named⟩

theorem Reads.blank_of_none {c : Char} {rest : List Char} (h : Reads (c :: rest) none left) :
    isBlank c = true := by
  generalize whole : c :: rest = text at h
  cases h with
  | done => cases whole
  | blank blank =>
    cases whole
    exact blank

theorem readToken_shorter (h : readToken size text = .ok (token, left)) (some' : text ≠ []) :
    left.length < text.length := by
  obtain ⟨front, full, rfl⟩ := (reads_of_readToken h).split some'
  rw [List.length_append]
  have := List.length_pos_iff.mpr full
  omega

theorem readToken_size (h : readToken size text = .ok (token, left)) (other : ℕ) :
    readToken other text = .ok (token, left) := by
  cases text with
  | nil => exact h
  | cons c rest =>
    rw [readToken] at h ⊢
    by_cases digit : c.isDigit = true
    · rwa [if_pos digit] at h ⊢
    · rw [if_neg digit] at h ⊢
      by_cases quote : c = '"' ∨ c = '\''
      · rwa [if_pos quote] at h ⊢
      · rw [if_neg quote] at h ⊢
        cases found : operatorAt? (c :: rest) with
        | some operator =>
          rw [found] at h
          exact h
        | none =>
          rw [found] at h
          dsimp only at h ⊢
          by_cases blank : isBlank c = true
          · rwa [if_pos blank] at h ⊢
          · rw [if_neg blank] at h ⊢
            split at h
            · exact h
            · cases h

end

/-- A run over a text that ends without an error: the tokens so far, the text, and the tokens at
the end, the last one first. -/
inductive Lexes : List Token → List Char → List Token → Prop where
  | done (tokens : List Token) : Lexes tokens [] tokens
  | blank {tokens final : List Token} {text left : List Char} : text ≠ [] →
      readToken 0 text = .ok (none, left) → Lexes tokens left final → Lexes tokens text final
  | token {before after final : List Token} {token : Token} {text left : List Char} : text ≠ [] →
      readToken 0 text = .ok (some token, left) → push 0 before token = (after, none) →
        Lexes after left final → Lexes before text final

theorem Lexes.readTokens_eq {before final : List Token} {text : List Char}
    (h : Lexes before text final) (size : ℕ) {fuel : ℕ} (room : text.length < fuel) :
    readTokens 0 size fuel before text = (final.reverse, none) := by
  induction h generalizing fuel with
  | done tokens =>
    cases fuel with
    | zero => cases room
    | succ fuel => rfl
  | @blank tokens final text left some' read _ ih =>
    obtain ⟨c, rest, rfl⟩ := List.exists_cons_of_ne_nil some'
    have shorter := readToken_shorter read some'
    cases fuel with
    | zero => cases room
    | succ fuel =>
      rw [readTokens, readToken_size read size]
      exact ih (by omega)
  | @token before after final token text left some' read pushed _ ih =>
    obtain ⟨c, rest, rfl⟩ := List.exists_cons_of_ne_nil some'
    have shorter := readToken_shorter read some'
    cases fuel with
    | zero => cases room
    | succ fuel =>
      rw [readTokens, readToken_size read size]
      simp only [pushed]
      exact ih (by omega)

theorem lexes_of_readTokens {before tokens : List Token} {text : List Char} {size fuel : ℕ}
    (room : text.length < fuel) (h : readTokens 0 size fuel before text = (tokens, none)) :
    Lexes before text tokens.reverse := by
  induction fuel generalizing before text with
  | zero => cases room
  | succ fuel ih =>
    cases text with
    | nil =>
      cases h
      rw [List.reverse_reverse]
      exact .done before
    | cons c rest =>
      rw [readTokens] at h
      split at h
      · cases h
      · rename_i left read
        have shorter := readToken_shorter read nofun
        exact .blank nofun (readToken_size read 0) (ih (by omega) h)
      · rename_i token left read
        have shorter := readToken_shorter read nofun
        split at h
        · rename_i after pushed
          exact .token nofun (readToken_size read 0) pushed (ih (by omega) h)
        · cases h

theorem tokenize_iff {source : List Char} {tokens : List Token} :
    tokenize 0 source = (tokens, none) ↔ Lexes [] source tokens.reverse := by
  constructor
  · exact lexes_of_readTokens (Nat.lt_succ_self _)
  · intro run
    have whole := run.readTokens_eq (byteLength source) (Nat.lt_succ_self source.length)
    rwa [List.reverse_reverse] at whole

section

variable {before after : List Token} {token : Token}

theorem push_cases (h : push 0 before token = (after, none)) :
    after = token :: before ∨
      (∃ o o', token = .op o ∧ o'.symbol = o.symbol ∧ after = .op o' :: before) ∨
      ∃ segment f rest, token = .op .leftParen ∧ before = .var (.path [segment]) :: rest ∧
        f.name = segment.text ∧ after = .op .leftParen :: .call f :: rest := by
  unfold push at h
  dsimp only at h
  split at h
  · cases h
    refine .inr (.inl ⟨.add, _, rfl, ?_, rfl⟩)
    split <;> rfl
  · cases h
    refine .inr (.inl ⟨.subtract, _, rfl, ?_, rfl⟩)
    split <;> rfl
  · rename_i segment rest
    split at h
    · rename_i f known
      cases h
      refine .inr (.inr ⟨segment, f, rest, rfl, rfl, ?_, rfl⟩)
      simpa using List.find?_some known
    · cases h
  · cases h
    exact .inl rfl

theorem length_push (h : push 0 before token = (after, none)) :
    after.length = before.length + 1 := by
  rcases push_cases h with rfl | ⟨o, o', -, -, rfl⟩ | ⟨segment, f, rest, -, rfl, -, rfl⟩ <;> rfl

end

theorem Lexes.length_le {before final : List Token} {text : List Char}
    (h : Lexes before text final) : before.length ≤ final.length := by
  induction h with
  | done => exact le_rfl
  | blank _ _ _ ih => exact ih
  | token _ _ pushed _ ih =>
    rw [length_push pushed] at ih
    omega

end JsonTemplate.Expr

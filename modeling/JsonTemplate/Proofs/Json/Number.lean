import JsonTemplate.Json.Printer
import JsonTemplate.Json.Reader
import JsonTemplate.Proofs.Number.NumberText

namespace JsonTemplate.Json

open JsonTemplate.Number JsonTemplate.Text JsonTemplate.Pattern

def isNumberChar (c : Char) : Bool := c.isDigit || c = '.' || c = 'e' || c = 'E'

theorem isNumberChar_of_mem {t : DecimalText} {c : Char} (h : c ∈ t.chars) :
    isNumberChar c = true ∨ c = '-' ∨ c = '+' := by
  rcases t.mem_chars h with digit | rfl | ⟨x, -, rfl | sign⟩
  · refine .inl ?_
    rw [isNumberChar, digit]
    rfl
  · exact .inl (by decide)
  · rcases x.isMark with same | same <;> rw [same] <;> exact .inl (by decide)
  · exact .inr (x.isSign c sign)

theorem isDigit_of_isNumberChar (c : Char) (h : isNumberChar c = false) : c.isDigit = false := by
  simp only [isNumberChar, Bool.or_eq_false_iff] at h
  exact h.1.1.1

/-- What JSON asks of a decimal text: no needless zero in front, and a digit behind the point. -/
structure Allowed (t : DecimalText) : Prop where
  whole : t.whole = ['0'] ∨ t.whole.head? ≠ some '0'
  fraction : ∀ digits ∈ t.fraction, digits ≠ []

def partsOf (negative : Bool) (t : DecimalText) : NumberText :=
  ⟨negative, t.whole, t.fraction, t.exponent.map ExponentText.value⟩

section

variable {t : DecimalText} {rest : List Char}

theorem readWhole_chars (allowed : Allowed t) (stop : Stops Char.isDigit rest) :
    readWhole (t.whole ++ rest) = .ok (t.whole, rest) := by
  rcases allowed.whole with zero | other
  · rw [zero, List.singleton_append]
    cases rest with
    | nil => rfl
    | cons d rest =>
      have other := stop d rfl
      simp only [readWhole, other, Bool.false_eq_true, if_false]
  · have isDigit := t.isDigit
    cases whole : t.whole with
    | nil => exact absurd whole t.some'
    | cons c digits =>
      rw [whole] at isDigit other
      have digit := isDigit c List.mem_cons_self
      have taken := stop.takeWhile_append isDigit
      have left := stop.dropWhile_append isDigit
      have nonzero : c ≠ '0' := by simpa using other
      rw [List.cons_append] at taken left ⊢
      unfold readWhole
      split
      · rename_i same
        cases same
      · rename_i same
        cases same
        exact absurd rfl nonzero
      · rename_i same
        cases same
        rw [if_pos digit, taken, left]

theorem readFraction_chars (allowed : Allowed t) (stop : Stops Char.isDigit rest)
    (pointless : ∀ more, rest ≠ '.' :: more) :
    readFraction (DecimalText.fractionChars t.fraction ++ rest) = .ok (t.fraction, rest) := by
  cases part : t.fraction with
  | none =>
    rw [DecimalText.fractionChars, List.nil_append]
    unfold readFraction
    split
    · exact absurd rfl (pointless _)
    · rfl
  | some digits =>
    have isDigit := t.isFraction digits part
    have some' : digits.isEmpty = false :=
      List.isEmpty_eq_false_iff.mpr (allowed.fraction digits part)
    simp only [DecimalText.fractionChars, List.cons_append, readFraction,
      stop.takeWhile_append isDigit, stop.dropWhile_append isDigit, some', Bool.false_eq_true,
      if_false]

theorem readExponent_chars (x : Option ExponentText) (stop : Stops isNumberChar rest) :
    readExponent (DecimalText.exponentChars x ++ rest) =
      .ok (x.map ExponentText.value, rest) := by
  cases x with
  | none =>
    rw [DecimalText.exponentChars, List.nil_append, Option.map_none]
    cases rest with
    | nil => rfl
    | cons c rest =>
      have other := stop c rfl
      simp only [isNumberChar, Bool.or_eq_false_iff, decide_eq_false_iff_not] at other
      rw [readExponent, if_neg (not_or.mpr ⟨other.1.2, other.2⟩)]
  | some x =>
    have stop := stop.mono isDigit_of_isNumberChar
    have sign := x.splitSign_chars rest
    cases digits : x.digits with
    | nil => exact absurd digits x.some'
    | cons d more =>
      have isDigit := x.isDigit
      have digit := isDigit d (by rw [digits]; exact List.mem_cons_self)
      have taken := stop.takeWhile_append isDigit
      have left := stop.dropWhile_append isDigit
      rw [digits, List.cons_append] at taken left sign
      simp only [DecimalText.exponentChars, ExponentText.chars, List.cons_append, List.append_assoc,
        readExponent, x.isMark, if_true, digits, sign, digit, taken, left, Option.map_some,
        ExponentText.value]

theorem stops_exponentChars (x : Option ExponentText) (stop : Stops isNumberChar rest) :
    Stops Char.isDigit (DecimalText.exponentChars x ++ rest) :=
  (DecimalText.stops_exponentChars x).append (stop.mono isDigit_of_isNumberChar)

theorem exponentChars_pointless (x : Option ExponentText) (stop : Stops isNumberChar rest)
    (more : List Char) : DecimalText.exponentChars x ++ rest ≠ '.' :: more := by
  intro same
  cases x with
  | none =>
    rw [DecimalText.exponentChars, List.nil_append] at same
    exact absurd (stop '.' (by rw [same]; rfl)) (by decide)
  | some x =>
    rw [DecimalText.exponentChars, ExponentText.chars, List.cons_append, List.cons.injEq] at same
    rcases x.isMark with mark | mark <;> rw [mark] at same <;> exact absurd same.1 (by decide)

theorem readNumber_chars {rule : DoubleRule} {negative : Bool} {n : Num} (allowed : Allowed t)
    (stop : Stops isNumberChar rest) (value : (partsOf negative t).toNum? rule = some n) :
    readNumber rule negative (t.chars ++ rest) = .ok (n, rest) := by
  have afterWhole : Stops Char.isDigit
      (DecimalText.fractionChars t.fraction ++ (DecimalText.exponentChars t.exponent ++ rest)) := by
    rw [← List.append_assoc]
    exact t.stops_fractionChars.append (stop.mono isDigit_of_isNumberChar)
  have whole := readWhole_chars allowed afterWhole
  have fraction := readFraction_chars allowed (stops_exponentChars t.exponent stop)
    (exponentChars_pointless t.exponent stop)
  have exponent := readExponent_chars t.exponent stop
  rw [partsOf] at value
  simp only [readNumber, DecimalText.chars, List.append_assoc, whole, fraction, exponent, value,
    bind, Except.bind]

end

theorem Layout.json_marked (d : Decimal) :
    (Layout.json.decimalText d).fraction ≠ none ∨ (Layout.json.decimalText d).exponent ≠ none := by
  unfold Layout.decimalText
  split_ifs
  · exact .inl nofun
  · exact .inl nofun
  · exact .inl nofun
  · exact .inr nofun

theorem toNum?_nearest {t : DecimalText} (negative : Bool)
    (marked : t.fraction ≠ none ∨ t.exponent ≠ none)
    (finite : Double.nearest t.value < Double.infinityBits) :
    (partsOf negative t).toNum? .nearest =
      some (.double (Double.ofMagnitude negative (Double.nearest t.value))) := by
  have double : (partsOf negative t).toDouble? .nearest =
      some (Double.ofMagnitude negative (Double.nearest t.value)) := by
    have exponent : (t.exponent.map ExponentText.value).getD 0 =
        t.exponent.elim 0 ExponentText.value := by cases t.exponent <;> rfl
    have read : Double.ofDecimal negative (digitsValue (t.whole ++ t.fraction.getD []))
        ((t.exponent.map ExponentText.value).getD 0 - (t.fraction.getD []).length) =
          Double.ofMagnitude negative (Double.nearest t.value) := by
      rw [exponent]
      exact Double.ofDecimal_eq negative t.coefficient t.scale
    have number :
        Double.isFinite (Double.ofMagnitude negative (Double.nearest t.value)) = true := by
      rw [Double.isFinite_iff, Double.magnitudeBits_ofMagnitude negative finite.le]
      exact finite
    simp only [NumberText.toDouble?, partsOf, read, number, if_true]
  unfold NumberText.toNum?
  split
  · rename_i fraction exponent
    rcases marked with given | given
    · exact absurd fraction given
    · exact absurd (Option.map_eq_none_iff.mp exponent) given
  · rw [double, Option.map_some]

def wholeText (n : ℕ) : DecimalText :=
  { DecimalText.zero with
    whole := Nat.toDigits 10 n
    some' := Nat.toDigits_ne_nil
    isDigit := isDigit_toDigits n }

theorem wholeText_chars (n : ℕ) : (wholeText n).chars = Nat.toDigits 10 n := by
  simp [DecimalText.chars, wholeText, DecimalText.zero, DecimalText.fractionChars,
    DecimalText.exponentChars]

theorem wholeText_allowed (n : ℕ) : Allowed (wholeText n) where
  whole := by
    by_cases zero : n = 0
    · exact .inl (by rw [zero]; rfl)
    · exact .inr (head_toDigits zero)
  fraction := nofun

theorem wholeText_toNum? {n : ℤ} (h : (Num.int n).IsJson) :
    (partsOf (decide (n < 0)) (wholeText n.natAbs)).toNum? .nearest = some (.int n) := by
  obtain ⟨least, most⟩ := h
  have least : -0x8000000000000000 ≤ n := least
  simp only [NumberText.toNum?, partsOf, wholeText, DecimalText.zero, Option.map_none,
    digitsValue_toDigits, decide_eq_true_eq]
  by_cases negative : n < 0
  · have within : ¬(n.natAbs = 0 ∨ 0x8000000000000000 < n.natAbs) := by omega
    have same : -(n.natAbs : ℤ) = n := by omega
    rw [if_pos negative, if_neg within, same]
  · have within : n.natAbs < 0x10000000000000000 := by omega
    have same : (n.natAbs : ℤ) = n := by omega
    rw [if_neg negative, if_pos within, same]

def zeroText : DecimalText :=
  { DecimalText.zero with
    fraction := some ['0']
    isFraction := by simp }

theorem json_decimal {n : Num} (h : n.IsJson) :
    ∃ negative t, n.json = signChars negative ++ t.chars ∧ Allowed t ∧
      (partsOf negative t).toNum? .nearest = some n := by
  cases n with
  | int n =>
    refine ⟨decide (n < 0), wholeText n.natAbs, ?_, wholeText_allowed _, wholeText_toNum? h⟩
    rw [Num.json, toString_toList, wholeText_chars, signChars]
    simp only [decide_eq_true_eq]
    split <;> rfl
  | double x =>
    have finite : Double.magnitudeBits x < Double.infinityBits := Double.isFinite_iff.mp h
    rcases Double.parts_cases x with ⟨-, rfl⟩ | ⟨-, bits⟩ | ⟨s, m, e, shape, canonical⟩
    · exact absurd (Double.eq_nan_iff.mp rfl) finite.not_gt
    · exact absurd bits finite.ne
    · have rounded : Double.nearest (m * 2 ^ e) = Double.magnitudeBits x := by
        rw [← canonical.value, Double.nearest_magnitude finite]
      have self := Double.ofMagnitude_self finite.le
      rw [canonical.sign] at self
      by_cases zero : m = 0
      · have none' : zeroText.value = m * 2 ^ e := by
          rw [zero, Nat.cast_zero, zero_mul]
          exact zero_mul _
        have read := toNum?_nearest (t := zeroText) s (.inl nofun) (by rwa [none', rounded])
        rw [none', rounded, self] at read
        refine ⟨s, zeroText, ?_, ⟨.inl rfl, by rintro _ ⟨⟩; exact List.cons_ne_nil _ _⟩, read⟩
        rw [Num.json, formatJson, shape]
        simp only [zero, if_true]
        cases s <;> rfl
      · let d := Decimal.shortest Layout.json.tie m e
        have value : Double.nearest (Layout.json.decimalText d).value = Double.magnitudeBits x := by
          rw [Layout.decimalText_value, Decimal.nearest_shortest, rounded]
        have read := toNum?_nearest s (Layout.json_marked d) (by rwa [value])
        rw [value, self] at read
        refine ⟨s, Layout.json.decimalText d, ?_, ⟨?_, Layout.json.decimalText_fraction⟩, read⟩
        · rw [Num.json, formatJson, shape]
          simp only [zero, if_false, String.toList_ofList]
          exact Layout.json.signed_eq s d
        · exact Layout.json.decimalText_whole (Decimal.shortest_normal _ zero e).some'

theorem json_cons {n : Num} (h : n.IsJson) :
    ∃ c more, n.json = c :: more ∧ (c = '-' ∨ c.isDigit = true) := by
  obtain ⟨negative, t, written, -, -⟩ := json_decimal h
  obtain ⟨c, more, same, digit⟩ := t.exists_chars
  rw [written]
  cases negative with
  | true => exact ⟨'-', t.chars, rfl, .inl rfl⟩
  | false => exact ⟨c, more, same, .inr digit⟩

theorem not_mem_json {n : Num} (h : n.IsJson) : '<' ∉ n.json := by
  obtain ⟨negative, t, written, -, -⟩ := json_decimal h
  have sign : '<' ∉ signChars negative := by cases negative <;> decide
  have body : '<' ∉ t.chars := fun member => by
    rcases isNumberChar_of_mem member with number | sign
    · exact absurd number (by decide)
    · exact absurd sign (by decide)
  rw [written, List.mem_append, not_or]
  exact ⟨sign, body⟩

theorem digit_ne {c d : Char} (digit : c.isDigit = true) (other : d.isDigit = false) : c ≠ d :=
  ne_of_apply_ne Char.isDigit (by simp [digit, other])

theorem isBlank_digit {c : Char} (digit : c.isDigit = true) : isBlank c = false := by
  simp [isBlank, digit_ne digit (d := ' ') rfl, digit_ne digit (d := '\n') rfl,
    digit_ne digit (d := '\t') rfl, digit_ne digit (d := '\r') rfl]

theorem readValue_digit {c : Char} (digit : c.isDigit = true) (fuel depth : ℕ)
    (text : List Char) :
    readValue .standard (fuel + 1) depth (c :: text) =
      (do
        let (n, rest) ← readNumber .nearest false (c :: text)
        .ok (.number n, rest)) := by
  have front : skipBlank (c :: text) = c :: text :=
    List.dropWhile_cons_of_neg (by simp [isBlank_digit digit])
  rw [readValue, front]
  split
  · rename_i same
    cases same
  iterate 7
    · rename_i same
      exact absurd (List.cons.inj same).1 (digit_ne digit rfl)
  · rename_i same
    cases same
    rw [if_pos digit]
    rfl

theorem readValue_json {n : Num} {rest : List Char} (h : n.IsJson) (stop : Stops isNumberChar rest)
    (fuel depth : ℕ) :
    readValue .standard (fuel + 1) depth (n.json ++ rest) = .ok (.number n, rest) := by
  obtain ⟨negative, t, written, allowed, value⟩ := json_decimal h
  have read := readNumber_chars allowed stop value
  rw [written]
  cases negative with
  | true =>
    have front : skipBlank ('-' :: (t.chars ++ rest)) = '-' :: (t.chars ++ rest) := rfl
    simp only [signChars, if_true, List.cons_append, List.nil_append, readValue, front,
      ReadRules.standard, read, bind, Except.bind]
  | false =>
    obtain ⟨c, more, same, digit⟩ := t.exists_chars
    rw [same, List.cons_append] at read
    simp only [signChars, Bool.false_eq_true, if_false, List.nil_append, same, List.cons_append,
      readValue_digit digit, read, bind, Except.bind]

end JsonTemplate.Json

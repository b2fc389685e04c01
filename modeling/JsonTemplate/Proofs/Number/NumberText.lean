import JsonTemplate.Proofs.Number.ReadBack

namespace JsonTemplate.Number

open JsonTemplate.Text

theorem eq_digitChar {c : Char} (digit : c.isDigit = true) :
    c.toNat - '0'.toNat < 10 ∧ c = Nat.digitChar (c.toNat - '0'.toNat) := by
  have bounds : 48 ≤ c.toNat ∧ c.toNat ≤ 57 := by
    simpa [Char.isDigit, UInt32.le_iff_toNat_le] using digit
  have small : c.toNat - '0'.toNat < 10 := by
    change c.toNat - 48 < 10
    omega
  refine ⟨small, Char.toNat_inj.mp ?_⟩
  rw [Nat.toNat_digitChar_of_lt_ten small]
  change c.toNat = 48 + (c.toNat - 48)
  omega

theorem digitsValue_singleton (c : Char) : digitsValue [c] = c.toNat - '0'.toNat := by
  simp [digitsValue]

theorem head_toDigits {n : ℕ} (some' : n ≠ 0) : (Nat.toDigits 10 n).head? ≠ some '0' := by
  induction n using Nat.strongRecOn with
  | ind n ih =>
    rcases Nat.lt_or_ge n 10 with small | large
    · rw [Nat.toDigits_of_lt_base small]
      simp [some']
    · have first := ih (n / 10) (by omega) (by omega)
      rw [Nat.toDigits_of_base_le (by decide) large,
        List.head?_append_of_ne_nil _ Nat.toDigits_ne_nil]
      exact first

theorem getLast_toDigits (n : ℕ) :
    (Nat.toDigits 10 n).getLast? = some (Nat.digitChar (n % 10)) := by
  rcases Nat.lt_or_ge n 10 with small | large
  · rw [Nat.toDigits_of_lt_base small, Nat.mod_eq_of_lt small]
    rfl
  · rw [Nat.toDigits_of_base_le (by decide) large]
    simp

theorem toDigits_digitsValue {digits : List Char} (some' : digits ≠ [])
    (isDigit : ∀ c ∈ digits, c.isDigit = true) (first : digits.head? ≠ some '0') :
    Nat.toDigits 10 (digitsValue digits) = digits := by
  induction digits using List.reverseRecOn with
  | nil => exact absurd rfl some'
  | append_singleton front c ih =>
    obtain ⟨small, same⟩ := eq_digitChar (isDigit c (by simp))
    have last : Nat.toDigits 10 (c.toNat - '0'.toNat) = [c] := by
      rw [Nat.toDigits_of_lt_base small, ← same]
    rw [digitsValue_append, digitsValue_singleton, List.length_singleton, pow_one]
    cases front with
    | nil => simpa [digitsValue] using last
    | cons d front =>
      have digits := ih (List.cons_ne_nil d front)
        (fun e member => isDigit e (List.mem_append_left _ member)) (by simpa using first)
      have positive : 0 < digitsValue (d :: front) := by
        refine Nat.pos_of_ne_zero fun zero => first ?_
        rw [zero] at digits
        cases digits
        rfl
      rw [Nat.mul_comm, ← Nat.toDigits_append_toDigits (by decide) positive small, digits, last]

/-- Digits of which neither the first nor the last is a zero. -/
structure Significant (digits : List Char) : Prop where
  some' : digits ≠ []
  isDigit : ∀ c ∈ digits, c.isDigit = true
  first : digits.head? ≠ some '0'
  last : digits.getLast? ≠ some '0'

namespace Decimal

def ofDigits (digits : List Char) (leading : ℤ) : Decimal :=
  ⟨digitsValue digits, leading - (digits.length - 1)⟩

def Normal (d : Decimal) : Prop := d.coefficient % 10 ≠ 0

variable {d d' : Decimal}

theorem Normal.some' (h : d.Normal) : d.coefficient ≠ 0 := fun zero => h (by rw [zero])

theorem Normal.significant (h : d.Normal) : Significant d.digits where
  some' := d.digits_ne_nil
  isDigit := d.isDigit_digits
  first := head_toDigits h.some'
  last := by
    rw [digits, getLast_toDigits]
    simpa [Normal] using h

theorem ofDigits_digits (d : Decimal) : ofDigits d.digits d.leading = d := by
  obtain ⟨coefficient, scale⟩ := d
  simp [ofDigits, leading, digitsValue_digits]

section

variable {digits : List Char} (significant : Significant digits) (leading : ℤ)

include significant

theorem digits_ofDigits : (ofDigits digits leading).digits = digits :=
  toDigits_digitsValue significant.some' significant.isDigit significant.first

theorem leading_ofDigits : (ofDigits digits leading).leading = leading := by
  have scale : (ofDigits digits leading).scale = leading - (digits.length - 1) := rfl
  rw [Decimal.leading, digits_ofDigits significant, scale]
  omega

theorem normal_ofDigits : (ofDigits digits leading).Normal := by
  intro zero
  have last := getLast_toDigits (ofDigits digits leading).coefficient
  rw [← Decimal.digits, digits_ofDigits significant, zero] at last
  exact significant.last last

end

theorem value_pos (some' : d.coefficient ≠ 0) : 0 < d.value := by
  have positive : (0 : ℚ) < d.coefficient := by exact_mod_cast Nat.pos_of_ne_zero some'
  rw [value]
  positivity

theorem coefficient_ne_zero (h : d.value ≠ 0) : d.coefficient ≠ 0 := by
  intro zero
  rw [value, zero, Nat.cast_zero, zero_mul] at h
  exact h rfl

theorem scale_le (h : d.Normal) (same : d.value = d'.value) : d'.scale ≤ d.scale := by
  by_contra more
  -- At a greater scale the coefficient would be a multiple of ten.
  obtain ⟨k, scale⟩ : ∃ k : ℕ, d'.scale = (k + 1 : ℕ) + d.scale :=
    ⟨(d'.scale - d.scale - 1).toNat, by omega⟩
  have power : (10 : ℚ) ^ d.scale ≠ 0 := by positivity
  have coefficients : (d.coefficient : ℚ) = (d'.coefficient * 10 ^ (k + 1) : ℕ) := by
    rw [value, value, scale, zpow_add₀ (by norm_num), zpow_natCast, ← mul_assoc] at same
    exact_mod_cast mul_right_cancel₀ power same
  have multiple : d.coefficient = d'.coefficient * 10 ^ k * 10 := by
    rw [mul_assoc, ← pow_succ]
    exact_mod_cast coefficients
  exact h (by rw [multiple, Nat.mul_mod_left])

theorem Normal.unique (h : d.Normal) (h' : d'.Normal) (same : d.value = d'.value) : d = d' := by
  have scale : d.scale = d'.scale := le_antisymm (scale_le h' same.symm) (scale_le h same)
  have power : (10 : ℚ) ^ d'.scale ≠ 0 := by positivity
  have coefficient : d.coefficient = d'.coefficient := by
    rw [value, value, scale] at same
    exact_mod_cast mul_right_cancel₀ power same
  exact congrArg₂ Decimal.mk coefficient scale

theorem stripZeros_normal {fuel : ℕ} (some' : d.coefficient ≠ 0)
    (enough : d.coefficient < 10 ^ fuel) : (stripZeros fuel d).Normal := by
  fun_induction stripZeros fuel d with
  | case1 d => exact absurd enough (by simpa using some')
  | case2 fuel d zero ih =>
    have some' : d.coefficient / 10 ≠ 0 := by omega
    have more : d.coefficient / 10 < 10 ^ fuel := by
      rw [Nat.pow_succ, Nat.mul_comm] at enough
      exact Nat.div_lt_of_lt_mul enough
    exact ih some' more
  | case3 fuel d normal => exact fun zero => normal ⟨some', zero⟩

theorem lt_pow_length (d : Decimal) : d.coefficient < 10 ^ d.digits.length :=
  (Nat.length_toDigits_le_iff (by decide) Nat.length_toDigits_pos).mp le_rfl

theorem pow_length_le (some' : d.coefficient ≠ 0) :
    10 ^ (d.digits.length - 1) ≤ d.coefficient := by
  by_contra small
  rcases Nat.eq_zero_or_pos (d.digits.length - 1) with one | more
  · rw [one, pow_zero] at small
    omega
  · have short := (Nat.length_toDigits_le_iff (b := 10) (by decide) more).mpr (not_le.mp small)
    rw [← digits] at short
    omega

theorem stripZeros_digits_normal (some' : d.coefficient ≠ 0) :
    (stripZeros d.digits.length d).Normal := stripZeros_normal some' d.lt_pow_length

theorem le_leading_iff (some' : d.coefficient ≠ 0) (k : ℤ) :
    k ≤ d.leading ↔ (10 : ℚ) ^ k ≤ d.value := by
  have length : 0 < d.digits.length := List.length_pos_iff.mpr d.digits_ne_nil
  have leading : d.leading = (d.digits.length - 1 : ℕ) + d.scale := by
    rw [Decimal.leading]
    omega
  have power : (0 : ℚ) < 10 ^ d.scale := by positivity
  constructor
  · intro within
    calc (10 : ℚ) ^ k ≤ 10 ^ d.leading := zpow_le_zpow_right₀ Double.one_lt_ten.le within
      _ = ((10 ^ (d.digits.length - 1) : ℕ) : ℚ) * 10 ^ d.scale := by
        rw [leading, zpow_add₀ (by norm_num), zpow_natCast, Nat.cast_pow, Nat.cast_ofNat]
      _ ≤ d.coefficient * 10 ^ d.scale :=
        mul_le_mul_of_nonneg_right (by exact_mod_cast pow_length_le some') power.le
  · intro least
    by_contra below
    refine absurd least (not_le.mpr ?_)
    calc d.value < ((10 ^ d.digits.length : ℕ) : ℚ) * 10 ^ d.scale :=
          mul_lt_mul_of_pos_right (by exact_mod_cast d.lt_pow_length) power
      _ = 10 ^ (d.digits.length + d.scale) := by
        rw [zpow_add₀ (by norm_num), zpow_natCast, Nat.cast_pow, Nat.cast_ofNat]
      _ ≤ 10 ^ k := zpow_le_zpow_right₀ Double.one_lt_ten.le (by omega)

end Decimal

/-- Number texts as they should be: without needless zeros, with a point among digits only, and with
an exponent only behind one digit that is not zero, perhaps with a fraction. -/
structure DecimalText.Tidy (t : DecimalText) : Prop where
  whole : t.whole = ['0'] ∨ t.whole.head? ≠ some '0'
  fraction : ∀ digits ∈ t.fraction, digits ≠ [] ∧ digits.getLast? ≠ some '0'
  exponent : ∀ x ∈ t.exponent, x.mark = 'e' ∧ x.sign.isSome = true ∧
    x.digits.head? ≠ some '0' ∧ t.whole.length = 1 ∧ t.whole ≠ ['0']

namespace DecimalText

variable (t : DecimalText)

theorem splitSign_chars : splitSign t.chars = (false, t.chars) := by
  obtain ⟨c, more, same, digit⟩ := t.exists_chars
  rw [same]
  exact splitSign_digit digit more

theorem mem_chars_iff (marked : ∀ x ∈ t.exponent, x.mark = 'e') :
    'e' ∈ t.chars ↔ t.exponent ≠ none := by
  constructor
  · intro member none
    rcases t.mem_chars member with digit | point | ⟨x, given, -⟩
    · exact absurd digit (by decide)
    · exact absurd point (by decide)
    · rw [none] at given
      cases given
  · intro some'
    obtain ⟨x, given⟩ := Option.ne_none_iff_exists'.mp some'
    simp [chars, given, exponentChars, ExponentText.chars, marked x given]

end DecimalText

namespace Layout

variable {d : Decimal}

theorem decimalText_whole (layout : Layout) (some' : d.coefficient ≠ 0) :
    (layout.decimalText d).whole = ['0'] ∨ (layout.decimalText d).whole.head? ≠ some '0' := by
  have first := head_toDigits some'
  rw [← Decimal.digits] at first
  unfold decimalText
  split_ifs
  · exact .inl rfl
  · refine .inr ?_
    rw [integralText, List.head?_append_of_ne_nil _ d.digits_ne_nil]
    exact first
  · refine .inr ?_
    rw [pointText, List.head?_take, if_neg (Nat.succ_ne_zero _)]
    exact first
  · refine .inr ?_
    rw [exponentialText, List.head?_take, if_neg (by decide)]
    exact first

theorem decimalText_fraction (layout : Layout) :
    ∀ digits ∈ (layout.decimalText d).fraction, digits ≠ [] := by
  intro digits given
  unfold decimalText at given
  split_ifs at given with positional small fits
  · cases given
    exact fun none => d.digits_ne_nil (List.append_eq_nil_iff.mp none).2
  · rw [integralText] at given
    dsimp only at given
    split at given
    · cases given
      exact List.cons_ne_nil _ _
    · cases given
  · cases given
    exact fun none => fits (List.drop_eq_nil_iff.mp none)
  · rw [exponentialText] at given
    dsimp only at given
    split at given
    · cases given
    · rename_i several
      cases given
      have some' := List.length_pos_iff.mpr d.digits_ne_nil
      refine fun none => several ?_
      have short := List.drop_eq_nil_iff.mp none
      omega

theorem plain_tidy (normal : d.Normal) : (plain.decimalText d).Tidy where
  whole := plain.decimalText_whole normal.some'
  fraction := by
    have last := normal.significant.last
    intro digits given
    refine ⟨plain.decimalText_fraction digits given, ?_⟩
    unfold decimalText at given
    split_ifs at given with positional small fits
    · cases given
      rw [List.getLast?_append_of_ne_nil _ d.digits_ne_nil]
      exact last
    · cases given
    · cases given
      rw [List.getLast?_drop, if_neg fits]
      exact last
    · rw [exponentialText] at given
      dsimp only at given
      split at given
      · cases given
      · rename_i several
        cases given
        have some' := List.length_pos_iff.mpr d.digits_ne_nil
        rw [List.getLast?_drop, if_neg (by omega)]
        exact last
  exponent := by
    intro x given
    unfold decimalText at given ⊢
    split_ifs at given ⊢ with positional
    · cases given
    · cases given
    · cases given
    · cases given
      have nonzero : d.leading.natAbs ≠ 0 := by
        intro zero
        refine positional ?_
        rw [Int.natAbs_eq_zero.mp zero]
        decide
      have some' := List.length_pos_iff.mpr d.digits_ne_nil
      have first := normal.significant.first
      refine ⟨rfl, rfl, head_toDigits nonzero, ?_, fun zero => ?_⟩
      · rw [exponentialText, List.length_take]
        omega
      · have head := congrArg List.head? zero
        rw [exponentialText, List.head?_take, if_neg (by decide)] at head
        exact first head

theorem plain_exponent_iff (some' : d.coefficient ≠ 0) :
    (plain.decimalText d).exponent = none ↔
      (10 : ℚ) ^ (-6 : ℤ) ≤ d.value ∧ d.value < 10 ^ (21 : ℤ) := by
  have most : d.leading ≤ 20 ↔ d.value < 10 ^ (21 : ℤ) := by
    rw [← not_le, ← Decimal.le_leading_iff some' 21]
    omega
  rw [← Decimal.le_leading_iff some' (-6), ← most]
  change _ ↔ plain.least ≤ d.leading ∧ d.leading ≤ plain.greatest
  unfold decimalText
  split_ifs with positional
  · exact ⟨fun _ => positional, fun _ => rfl⟩
  · exact ⟨fun _ => positional, fun _ => rfl⟩
  · exact ⟨fun _ => positional, fun _ => rfl⟩
  · exact ⟨nofun, fun within => absurd within positional⟩

end Layout

def signChars (negative : Bool) : List Char := if negative then ['-'] else []

/-- Reads a number text as its sign, its digits without zeros at either end, and the exponent of the
first of them. -/
def readScientific? (text : List Char) : Option (Bool × List Char × ℤ) :=
  let (negative, body) := splitSign text
  (readMagnitude? body).map fun (coefficient, scale) =>
    let d := Decimal.stripZeros (Nat.toDigits 10 coefficient).length ⟨coefficient, scale⟩
    (negative, d.digits, d.leading)

theorem readScientific?_chars (negative : Bool) {t : DecimalText} {d : Decimal} (normal : d.Normal)
    (value : t.value = d.value) :
    readScientific? (signChars negative ++ t.chars) = some (negative, d.digits, d.leading) := by
  have split' : splitSign (signChars negative ++ t.chars) = (negative, t.chars) := by
    cases negative with
    | true => rfl
    | false => exact t.splitSign_chars
  have read : (⟨t.coefficient, t.scale⟩ : Decimal).value = d.value := value
  have some' : (⟨t.coefficient, t.scale⟩ : Decimal).coefficient ≠ 0 := by
    refine Decimal.coefficient_ne_zero ?_
    rw [read]
    exact (Decimal.value_pos normal.some').ne'
  have same : Decimal.stripZeros (Nat.toDigits 10 t.coefficient).length ⟨t.coefficient, t.scale⟩ =
      d :=
    (Decimal.stripZeros_digits_normal some').unique normal
      ((Decimal.stripZeros_value _ _).trans read)
  rw [readScientific?, split']
  dsimp only
  rw [t.readMagnitude?_chars, Option.map_some, same]

theorem Layout.signed_eq (layout : Layout) (negative : Bool) (d : Decimal) :
    layout.signed negative d = signChars negative ++ (layout.decimalText d).chars := by
  rw [signed, decimalText_chars]
  cases negative <;> rfl

theorem Decimal.shortest_normal (tie : Tie) {m : ℕ} (some' : m ≠ 0) (e : ℤ) :
    (shortest tie m e).Normal := by
  refine stripZeros_digits_normal ?_
  unfold Option.getD
  split
  · rename_i d found
    obtain ⟨k, -, grid⟩ := List.exists_of_findSome?_eq_some found
    exact (onGrid_reads grid).1
  · refine coefficient_ne_zero ?_
    rw [exact_value]
    have positive : (0 : ℚ) < m := by exact_mod_cast Nat.pos_of_ne_zero some'
    positivity

/-- The text of a number with given digits and exponent is exact: it denotes that number, has an
exponent only if the number is below `10 ^ -6` or not below `10 ^ 21`, has no needless zero, and
reads back as the same digits, exponent and sign. The text of a double is that of its shortest
digits, which read back as the double. -/
theorem number_text_exact :
    (∀ (digits : List Char) (leading : ℤ) (negative : Bool), Significant digits →
      ∃ t : DecimalText,
        Layout.plain.signed negative (.ofDigits digits leading) =
            signChars negative ++ t.chars ∧
          t.value = (Decimal.ofDigits digits leading).value ∧ t.Tidy ∧
          ('e' ∉ t.chars ↔ (10 : ℚ) ^ (-6 : ℤ) ≤ t.value ∧ t.value < 10 ^ (21 : ℤ)) ∧
          readScientific? (Layout.plain.signed negative (.ofDigits digits leading)) =
            some (negative, digits, leading)) ∧
      ∀ (x : Float) (negative : Bool) (m : ℕ) (e : ℤ), Double.parts x = .finite negative m e →
        m ≠ 0 → ∃ digits leading, Significant digits ∧
          formatNumber x =
            String.ofList (Layout.plain.signed negative (.ofDigits digits leading)) ∧
          Decimal.shortest Layout.plain.tie m e = .ofDigits digits leading ∧
          (Decimal.ofDigits digits leading).toDouble = Double.ofBinary false m e := by
  constructor
  · intro digits leading negative significant
    let d : Decimal := .ofDigits digits leading
    have normal : d.Normal := Decimal.normal_ofDigits significant leading
    have value := Layout.plain.decimalText_value d
    have tidy := Layout.plain_tidy normal
    have written := Layout.plain.signed_eq negative d
    refine ⟨Layout.plain.decimalText d, written, value, tidy, ?_, ?_⟩
    · rw [DecimalText.mem_chars_iff _ fun x given => (tidy.exponent x given).1, not_not, value]
      exact Layout.plain_exponent_iff normal.some'
    · rw [written, readScientific?_chars negative normal value,
        Decimal.digits_ofDigits significant, Decimal.leading_ofDigits significant]
  · intro x negative m e shape some'
    have normal := Decimal.shortest_normal Layout.plain.tie some' e
    have same := Decimal.ofDigits_digits (Decimal.shortest Layout.plain.tie m e)
    refine ⟨_, _, normal.significant, ?_, same.symm, ?_⟩
    · rw [same, formatNumber, shape]
      simp only [some', if_false]
    · rw [same, Decimal.shortest_toDouble, Double.ofBinary_eq]

theorem number_text_exact_tiny :
    Significant ['1', '2', '5'] ∧
      Layout.plain.signed true (.ofDigits ['1', '2', '5'] (-7)) = "-1.25e-7".toList ∧
      readScientific? "-1.25e-7".toList = some (true, ['1', '2', '5'], -7) ∧
      Double.parts (Double.ofDecimal true 15 (-1)) = .finite true 0x18000000000000 (-52) ∧
      ∃ digits leading, Significant digits ∧
        formatNumber (Double.ofDecimal true 15 (-1)) =
          String.ofList (Layout.plain.signed true (.ofDigits digits leading)) := by
  have significant : Significant ['1', '2', '5'] :=
    ⟨by decide, by simp, by decide, by decide⟩
  have written : Layout.plain.signed true (.ofDigits ['1', '2', '5'] (-7)) = "-1.25e-7".toList := by
    decide +kernel
  have shape : Double.parts (Double.ofDecimal true 15 (-1)) =
      .finite true 0x18000000000000 (-52) := by decide +kernel
  obtain ⟨t, -, -, -, -, read⟩ := number_text_exact.1 ['1', '2', '5'] (-7) true significant
  obtain ⟨digits, leading, found, text, -⟩ := number_text_exact.2 _ true _ _ shape (by decide)
  rw [written] at read
  exact ⟨significant, written, read, shape, digits, leading, found, text⟩

end JsonTemplate.Number

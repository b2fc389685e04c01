import JsonTemplate.Number.Format
import JsonTemplate.Number.Reader
import JsonTemplate.Proofs.Pattern.Split
import JsonTemplate.Proofs.Variable.Name
import Mathlib.Algebra.Order.Field.Basic
import Mathlib.Data.List.TakeWhile
import Mathlib.Data.Rat.Cast.Order
import Mathlib.Tactic.FieldSimp
import Mathlib.Tactic.Ring

namespace JsonTemplate.Number

open JsonTemplate.Text JsonTemplate.Pattern

theorem splitSign_digit {c : Char} (digit : c.isDigit = true) (rest : List Char) :
    splitSign (c :: rest) = (false, c :: rest) := by
  unfold splitSign
  split
  · rename_i same
    cases same
    exact absurd digit (by decide)
  · rename_i same
    cases same
    exact absurd digit (by decide)
  · rfl

theorem splitSign_digits {digits : List Char} (isDigit : ∀ c ∈ digits, c.isDigit = true) :
    splitSign digits = (false, digits) := by
  cases digits with
  | nil => rfl
  | cons c rest => exact splitSign_digit (isDigit c List.mem_cons_self) rest

structure ExponentText where
  mark : Char
  sign : Option Char
  digits : List Char
  isMark : mark = 'e' ∨ mark = 'E'
  isSign : ∀ c ∈ sign, c = '-' ∨ c = '+'
  some' : digits ≠ []
  isDigit : ∀ c ∈ digits, c.isDigit = true

namespace ExponentText

def chars (x : ExponentText) : List Char := x.mark :: (x.sign.toList ++ x.digits)

def value (x : ExponentText) : ℤ := withSign (x.sign = some '-') (digitsValue x.digits)

theorem splitSign_chars (x : ExponentText) (rest : List Char) :
    splitSign (x.sign.toList ++ (x.digits ++ rest)) =
      (decide (x.sign = some '-'), x.digits ++ rest) := by
  cases signed : x.sign with
  | none =>
    cases digits : x.digits with
    | nil => exact absurd digits x.some'
    | cons d more =>
      exact splitSign_digit (x.isDigit d (by rw [digits]; exact List.mem_cons_self)) (more ++ rest)
  | some c =>
    rcases x.isSign c signed with rfl | rfl
    · rfl
    · rfl

theorem readExponent?_chars (x : ExponentText) : readExponent? x.chars = some (x.value, []) := by
  have digits : x.digits.takeWhile Char.isDigit = x.digits :=
    List.takeWhile_eq_self_iff.mpr x.isDigit
  have left : x.digits.dropWhile Char.isDigit = [] := List.dropWhile_eq_nil_iff.mpr x.isDigit
  have some' : x.digits.isEmpty = false := List.isEmpty_eq_false_iff.mpr x.some'
  have sign := x.splitSign_chars []
  rw [List.append_nil] at sign
  simp only [chars, readExponent?, x.isMark, if_true, sign, digits, left, some',
    Bool.false_eq_true, if_false, value]

theorem stops (x : ExponentText) : Stops Char.isDigit x.chars := by
  refine .cons ?_ _
  rcases x.isMark with same | same <;> rw [same] <;> rfl

end ExponentText

structure DecimalText where
  whole : List Char
  fraction : Option (List Char)
  exponent : Option ExponentText
  some' : whole ≠ []
  isDigit : ∀ c ∈ whole, c.isDigit = true
  isFraction : ∀ digits ∈ fraction, ∀ c ∈ digits, c.isDigit = true

namespace DecimalText

def exponentChars : Option ExponentText → List Char
  | none => []
  | some x => x.chars

def fractionChars : Option (List Char) → List Char
  | none => []
  | some digits => '.' :: digits

def chars (t : DecimalText) : List Char :=
  t.whole ++ (fractionChars t.fraction ++ exponentChars t.exponent)

def coefficient (t : DecimalText) : ℕ := digitsValue (t.whole ++ t.fraction.getD [])

def scale (t : DecimalText) : ℤ :=
  t.exponent.elim 0 ExponentText.value - (t.fraction.getD []).length

/-- The number that a decimal text denotes. -/
def value (t : DecimalText) : ℚ := t.coefficient * 10 ^ t.scale

theorem exists_chars (t : DecimalText) : ∃ c more, t.chars = c :: more ∧ c.isDigit = true := by
  obtain ⟨c, more, whole⟩ := List.exists_cons_of_ne_nil t.some'
  have digit : c.isDigit = true := t.isDigit c (by rw [whole]; exact List.mem_cons_self)
  exact ⟨c, _, by rw [chars, whole, List.cons_append], digit⟩

theorem mem_chars (t : DecimalText) {c : Char} (h : c ∈ t.chars) :
    c.isDigit = true ∨ c = '.' ∨ ∃ x ∈ t.exponent, c = x.mark ∨ c ∈ x.sign := by
  rcases List.mem_append.mp h with whole | h
  · exact .inl (t.isDigit c whole)
  · rcases List.mem_append.mp h with point | mark
    · cases part : t.fraction with
      | none =>
        rw [part] at point
        cases point
      | some digits =>
        rw [part] at point
        rcases List.mem_cons.mp point with same | inside
        · exact .inr (.inl same)
        · exact .inl (t.isFraction digits part c inside)
    · cases part : t.exponent with
      | none =>
        rw [part] at mark
        cases mark
      | some x =>
        rw [part] at mark
        rcases List.mem_cons.mp mark with same | inside
        · exact .inr (.inr ⟨x, rfl, .inl same⟩)
        · rcases List.mem_append.mp inside with sign | inside
          · exact .inr (.inr ⟨x, rfl, .inr (Option.mem_toList.mp sign)⟩)
          · exact .inl (x.isDigit c inside)

theorem stops_exponentChars (x : Option ExponentText) : Stops Char.isDigit (exponentChars x) := by
  cases x with
  | none => exact .nil
  | some x => exact x.stops

theorem stops_fractionChars (t : DecimalText) :
    Stops Char.isDigit (fractionChars t.fraction ++ exponentChars t.exponent) := by
  cases t.fraction with
  | none => exact stops_exponentChars t.exponent
  | some digits => exact .cons (by rfl) _

theorem readExponent?_exponentChars (x : Option ExponentText) :
    readExponent? (exponentChars x) = some (x.elim 0 ExponentText.value, []) := by
  cases x with
  | none => rfl
  | some x => exact x.readExponent?_chars

theorem readMagnitude?_chars (t : DecimalText) :
    readMagnitude? t.chars = some (t.coefficient, t.scale) := by
  have whole : t.chars.takeWhile Char.isDigit = t.whole :=
    t.stops_fractionChars.takeWhile_append t.isDigit
  have afterWhole : t.chars.dropWhile Char.isDigit =
      fractionChars t.fraction ++ exponentChars t.exponent :=
    t.stops_fractionChars.dropWhile_append t.isDigit
  have some' : t.whole.isEmpty = false := List.isEmpty_eq_false_iff.mpr t.some'
  have exponent := readExponent?_exponentChars t.exponent
  cases part : t.fraction with
  | none =>
    have pointless : ∀ rest, exponentChars t.exponent ≠ '.' :: rest := by
      intro rest same
      cases left : t.exponent with
      | none => simp [left, exponentChars] at same
      | some x =>
        rw [left, exponentChars, ExponentText.chars, List.cons.injEq] at same
        rcases x.isMark with mark | mark <;> rw [mark] at same <;> exact absurd same.1 (by decide)
    simp only [readMagnitude?, whole, afterWhole, part, fractionChars, List.nil_append, some',
      Bool.false_and, Bool.false_eq_true, if_false, exponent, coefficient, scale,
      Option.getD_none]
  | some digits =>
    have stop := stops_exponentChars t.exponent
    have isDigit := t.isFraction digits part
    simp only [readMagnitude?, whole, afterWhole, part, fractionChars, List.cons_append,
      stop.takeWhile_append isDigit, stop.dropWhile_append isDigit, exponent, some', Bool.false_and,
      Bool.false_eq_true, if_false, coefficient, scale, Option.getD_some]

end DecimalText

section

variable {digits : List Char}

theorem foldl_digits (n : ℕ) (digits : List Char) :
    digits.foldl (fun n c => n * 10 + (c.toNat - '0'.toNat)) n =
      n * 10 ^ digits.length + digitsValue digits := by
  induction digits generalizing n with
  | nil => simp [digitsValue]
  | cons c digits ih =>
    rw [digitsValue, List.foldl_cons, List.foldl_cons, ih, ih (0 * 10 + _), List.length_cons]
    ring

theorem digitsValue_append (front back : List Char) :
    digitsValue (front ++ back) = digitsValue front * 10 ^ back.length + digitsValue back := by
  rw [digitsValue, List.foldl_append]
  exact foldl_digits _ back

theorem digitsValue_zeros (n : ℕ) : digitsValue (List.replicate n '0') = 0 := by
  induction n with
  | zero => rfl
  | succ n ih =>
    rw [List.replicate_succ, ← List.singleton_append, digitsValue_append, ih]
    simp [digitsValue]

theorem isDigit_zeros {n : ℕ} : ∀ c ∈ List.replicate n '0', c.isDigit = true := by
  intro c member
  rw [List.eq_of_mem_replicate member]
  rfl

theorem isDigit_append {front back : List Char} (first : ∀ c ∈ front, c.isDigit = true)
    (second : ∀ c ∈ back, c.isDigit = true) : ∀ c ∈ front ++ back, c.isDigit = true := by
  intro c member
  exact (List.mem_append.mp member).elim (first c) (second c)

theorem isDigit_toDigits (n : ℕ) : ∀ c ∈ Nat.toDigits 10 n, c.isDigit = true :=
  fun _ => Nat.isDigit_of_mem_toDigits (by decide) (by decide)

end

def ExponentText.ofInt (e : ℤ) : ExponentText where
  mark := 'e'
  sign := some (if e < 0 then '-' else '+')
  digits := Nat.toDigits 10 e.natAbs
  isMark := .inl rfl
  isSign := by
    rintro c ⟨⟩
    split
    · exact .inl rfl
    · exact .inr rfl
  some' := Nat.toDigits_ne_nil
  isDigit := isDigit_toDigits _

theorem ExponentText.ofInt_value (e : ℤ) : (ofInt e).value = e := by
  rw [value, ofInt, digitsValue_toDigits, withSign]
  by_cases negative : e < 0
  · simp only [negative, if_true, decide_true]
    omega
  · have plus : some (if e < 0 then '-' else '+') ≠ some '-' := by
      rw [if_neg negative]
      decide
    simp only [plus, decide_false, Bool.false_eq_true, if_false]
    omega

theorem ExponentText.ofInt_chars (e : ℤ) : (ofInt e).chars = 'e' :: exponentText e := rfl

namespace Decimal

/-- The number that a decimal stands for. -/
def value (d : Decimal) : ℚ := d.coefficient * 10 ^ d.scale

variable {d : Decimal}

theorem digits_ne_nil (d : Decimal) : d.digits ≠ [] := Nat.toDigits_ne_nil

theorem isDigit_digits (d : Decimal) : ∀ c ∈ d.digits, c.isDigit = true := isDigit_toDigits _

theorem digitsValue_digits (d : Decimal) : digitsValue d.digits = d.coefficient :=
  digitsValue_toDigits _

end Decimal

namespace DecimalText

variable {d : Decimal} {t : DecimalText}

theorem value_eq (coefficient : t.coefficient = d.coefficient) (scale : t.scale = d.scale) :
    t.value = d.value := by
  rw [value, coefficient, scale, Decimal.value]

theorem value_eq_of_zeros {k : ℕ} (coefficient : t.coefficient = d.coefficient * 10 ^ k)
    (scale : t.scale = d.scale - k) : t.value = d.value := by
  rw [value, coefficient, scale, Decimal.value, zpow_sub₀ (by norm_num), zpow_natCast]
  push_cast
  field_simp

def zero : DecimalText where
  whole := ['0']
  fraction := none
  exponent := none
  some' := nofun
  isDigit := by simp
  isFraction := nofun

end DecimalText

namespace Layout

open DecimalText

def smallText (d : Decimal) : DecimalText where
  whole := ['0']
  fraction := some (List.replicate (-d.leading - 1).toNat '0' ++ d.digits)
  exponent := none
  some' := nofun
  isDigit := by simp
  isFraction := by
    rintro _ ⟨⟩
    exact isDigit_append isDigit_zeros d.isDigit_digits

def integralText (layout : Layout) (d : Decimal) : DecimalText where
  whole := d.digits ++ List.replicate (d.leading.toNat + 1 - d.digits.length) '0'
  fraction := if layout.fraction then some ['0'] else none
  exponent := none
  some' := fun none => d.digits_ne_nil (List.append_eq_nil_iff.mp none).1
  isDigit := isDigit_append d.isDigit_digits isDigit_zeros
  isFraction := by cases layout.fraction <;> simp

def pointText (d : Decimal) : DecimalText where
  whole := d.digits.take (d.leading.toNat + 1)
  fraction := some (d.digits.drop (d.leading.toNat + 1))
  exponent := none
  some' := by simpa using d.digits_ne_nil
  isDigit := fun c member => d.isDigit_digits c (List.mem_of_mem_take member)
  isFraction := by
    rintro _ ⟨⟩ c member
    exact d.isDigit_digits c (List.mem_of_mem_drop member)

def exponentialText (d : Decimal) : DecimalText where
  whole := d.digits.take 1
  fraction := if d.digits.length = 1 then none else some (d.digits.drop 1)
  exponent := some (.ofInt d.leading)
  some' := by simpa using d.digits_ne_nil
  isDigit := fun c member => d.isDigit_digits c (List.mem_of_mem_take member)
  isFraction := by
    intro digits given c member
    split at given
    · cases given
    · cases given
      exact d.isDigit_digits c (List.mem_of_mem_drop member)

def decimalText (layout : Layout) (d : Decimal) : DecimalText :=
  if layout.least ≤ d.leading ∧ d.leading ≤ layout.greatest then
    if d.leading < 0 then smallText d
    else if d.digits.length ≤ d.leading.toNat + 1 then integralText layout d
    else pointText d
  else exponentialText d

theorem decimalText_chars (layout : Layout) (d : Decimal) :
    (layout.decimalText d).chars = layout.body d.digits d.leading := by
  unfold decimalText body
  split
  · split
    · simp [smallText, chars, fractionChars, exponentChars]
    · split
      · rename_i fits
        cases mark : layout.fraction <;>
          simp [integralText, mark, fits, chars, fractionChars, exponentChars]
      · rename_i long
        simp [pointText, long, chars, fractionChars, exponentChars]
  · cases digits : d.digits with
    | nil => exact absurd digits d.digits_ne_nil
    | cons c rest =>
      cases rest <;>
        simp [exponentialText, digits, chars, fractionChars, exponentChars,
          ExponentText.ofInt_chars]

theorem smallText_value {d : Decimal} (small : d.leading < 0) : (smallText d).value = d.value := by
  have leading : d.leading = d.digits.length - 1 + d.scale := rfl
  refine value_eq ?_ ?_
  · rw [coefficient, smallText, Option.getD_some, digitsValue_append, digitsValue_append,
      digitsValue_zeros, d.digitsValue_digits]
    simp [digitsValue]
  · simp only [scale, smallText, Option.getD_some, Option.elim_none, List.length_append,
      List.length_replicate]
    omega

theorem integralText_value {layout : Layout} {d : Decimal} (large : 0 ≤ d.leading)
    (fits : d.digits.length ≤ d.leading.toNat + 1) : (integralText layout d).value = d.value := by
  have leading : d.leading = d.digits.length - 1 + d.scale := rfl
  have digits : digitsValue (integralText layout d).whole =
      d.coefficient * 10 ^ (d.leading.toNat + 1 - d.digits.length) := by
    rw [integralText, digitsValue_append, digitsValue_zeros, d.digitsValue_digits,
      List.length_replicate, Nat.add_zero]
  have exponent : (integralText layout d).exponent = none := rfl
  cases mark : layout.fraction with
  | false =>
    have fraction : (integralText layout d).fraction = none := by simp [integralText, mark]
    refine value_eq_of_zeros (k := d.leading.toNat + 1 - d.digits.length) ?_ ?_
    · rw [coefficient, fraction, Option.getD_none, List.append_nil, digits]
    · rw [scale, fraction, exponent, Option.getD_none, Option.elim_none, List.length_nil]
      omega
  | true =>
    have fraction : (integralText layout d).fraction = some ['0'] := by simp [integralText, mark]
    refine value_eq_of_zeros (k := d.leading.toNat + 1 - d.digits.length + 1) ?_ ?_
    · rw [coefficient, fraction, Option.getD_some, digitsValue_append, digits, pow_succ, mul_assoc]
      rfl
    · rw [scale, fraction, exponent, Option.getD_some, Option.elim_none, List.length_singleton]
      omega

theorem pointText_value {d : Decimal} (large : 0 ≤ d.leading)
    (long : d.leading.toNat + 1 < d.digits.length) : (pointText d).value = d.value := by
  have leading : d.leading = d.digits.length - 1 + d.scale := rfl
  refine value_eq ?_ ?_
  · rw [coefficient, pointText, Option.getD_some, List.take_append_drop, d.digitsValue_digits]
  · simp only [scale, pointText, Option.getD_some, Option.elim_none, List.length_drop]
    omega

theorem exponentialText_value (d : Decimal) : (exponentialText d).value = d.value := by
  have leading : d.leading = d.digits.length - 1 + d.scale := rfl
  have some' : 0 < d.digits.length := List.length_pos_iff.mpr d.digits_ne_nil
  have whole : (exponentialText d).whole = d.digits.take 1 := rfl
  have exponent : (exponentialText d).exponent = some (.ofInt d.leading) := rfl
  have fraction : (exponentialText d).fraction.getD [] = d.digits.drop 1 := by
    rw [exponentialText]
    split
    · rename_i single
      rw [Option.getD_none, List.drop_eq_nil_of_le single.le]
    · rw [Option.getD_some]
  refine value_eq ?_ ?_
  · rw [coefficient, fraction, whole, List.take_append_drop, d.digitsValue_digits]
  · rw [scale, fraction, exponent, Option.elim_some, ExponentText.ofInt_value, List.length_drop]
    omega

theorem decimalText_value (layout : Layout) (d : Decimal) :
    (layout.decimalText d).value = d.value := by
  unfold decimalText
  split_ifs with positional small fits
  · exact smallText_value small
  · exact integralText_value (not_lt.mp small) fits
  · exact pointText_value (not_lt.mp small) (not_le.mp fits)
  · exact exponentialText_value d

end Layout

theorem toString_toList (n : ℤ) :
    (toString n).toList =
      if n < 0 then '-' :: Nat.toDigits 10 n.natAbs else Nat.toDigits 10 n.natAbs := by
  cases n with
  | ofNat n =>
    rw [if_neg (by simp)]
    exact String.toList_ofList
  | negSucc n =>
    have digits : (Nat.repr (n + 1)).toList = Nat.toDigits 10 (n + 1) := String.toList_ofList
    have text : toString (Int.negSucc n) = "-" ++ Nat.repr (n + 1) := rfl
    rw [if_pos (Int.negSucc_lt_zero n), text, String.toList_append, digits]
    rfl

theorem readInt64?_toString {n : ℤ} (least : Double.leastInt64 ≤ n)
    (greatest : n ≤ Double.greatestInt64) : readInt64? (toString n).toList = some n := by
  have digits := isDigit_toDigits n.natAbs
  have split' : splitSign (toString n).toList = (decide (n < 0), Nat.toDigits 10 n.natAbs) := by
    rw [toString_toList]
    split
    · rename_i negative
      simp [splitSign, negative]
    · rename_i nonneg
      simp [splitSign_digits digits, nonneg]
  have signed : withSign (decide (n < 0)) n.natAbs = n := by
    rw [withSign]
    simp only [decide_eq_true_eq]
    split <;> omega
  have some' : (Nat.toDigits 10 n.natAbs).isEmpty = false :=
    List.isEmpty_eq_false_iff.mpr Nat.toDigits_ne_nil
  have all : (Nat.toDigits 10 n.natAbs).all Char.isDigit = true := List.all_eq_true.mpr digits
  rw [readInt64?, readInt?, split']
  simp only [some', all, Bool.not_true, Bool.or_false, Bool.false_eq_true, if_false,
    digitsValue_toDigits, signed, least, greatest, and_self, if_true]

end JsonTemplate.Number

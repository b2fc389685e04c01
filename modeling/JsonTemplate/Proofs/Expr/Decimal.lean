import JsonTemplate.Expr.Lexer
import JsonTemplate.Proofs.Number.Arithmetic
import JsonTemplate.Proofs.Number.ReadBack

namespace JsonTemplate.Expr

open JsonTemplate.Number JsonTemplate.Number.DecimalText JsonTemplate.Text JsonTemplate.Pattern

section

variable {s : DecimalState} {run text taken left rest : List Char}

theorem scanDecimal_digit {c : Char} (h : c.isDigit = true) (s : DecimalState) (rest : List Char) :
    scanDecimal s (c :: rest) =
      (scanDecimal { s with digitDue := false } rest).map fun (taken, left) => (c :: taken, left) := by
  have point : c ≠ '.' := by rintro rfl; cases h
  have mark : ¬(c = 'e' ∨ c = 'E') := by rintro (rfl | rfl) <;> cases h
  have sign : ¬(c = '-' ∨ c = '+') := by rintro (rfl | rfl) <;> cases h
  simp only [scanDecimal, point, mark, sign, h, if_false, if_true]

theorem scanDecimal_digits (isDigit : ∀ c ∈ run, c.isDigit = true) (s : DecimalState)
    (rest : List Char) :
    scanDecimal s (run ++ rest) =
      (scanDecimal { s with digitDue := s.digitDue && run.isEmpty } rest).map
        fun (taken, left) => (run ++ taken, left) := by
  induction run generalizing s with
  | nil =>
    rw [List.nil_append, List.isEmpty_nil, Bool.and_true]
    cases scanDecimal s rest <;> rfl
  | cons c run ih =>
    rw [List.cons_append, scanDecimal_digit (isDigit c List.mem_cons_self),
      ih fun c member => isDigit c (List.mem_cons_of_mem _ member)]
    simp only [Bool.false_and, List.isEmpty_cons, Bool.and_false]
    cases scanDecimal { s with digitDue := false } rest <;> rfl

theorem of_scanDecimal (h : scanDecimal s text = .ok (taken, left)) :
    ∃ run more rest, (∀ c ∈ run, c.isDigit = true) ∧ Stops Char.isDigit rest ∧ text = run ++ rest ∧
      taken = run ++ more ∧
        scanDecimal { s with digitDue := s.digitDue && run.isEmpty } rest = .ok (more, left) := by
  have isDigit : ∀ c ∈ text.takeWhile Char.isDigit, c.isDigit = true :=
    fun _ member => List.mem_takeWhile_imp member
  have whole : text.takeWhile Char.isDigit ++ text.dropWhile Char.isDigit = text :=
    List.takeWhile_append_dropWhile
  rw [← whole, scanDecimal_digits isDigit] at h
  obtain ⟨⟨more, left⟩, scanned, same⟩ := ok_of_map h
  cases same
  exact ⟨_, more, _, isDigit, stops_dropWhile text, whole.symm, rfl, scanned⟩

theorem scanDecimal_append (h : scanDecimal s text = .ok (taken, left)) : taken ++ left = text := by
  induction text generalizing s taken left with
  | nil =>
    simp only [scanDecimal] at h
    split_ifs at h
    cases h
    rfl
  | cons c text ih =>
    simp only [scanDecimal] at h
    split_ifs at h
    all_goals
      first
        | cases h
          rfl
        | obtain ⟨⟨more, left⟩, scanned, same⟩ := ok_of_map h
          cases same
          exact congrArg (c :: ·) (ih scanned)

theorem scanDecimal_ended {point sign : Bool} (stop : Stops Char.isDigit rest)
    (h : scanDecimal ⟨point, true, false, sign⟩ rest = .ok (taken, left)) : taken = [] := by
  cases rest with
  | nil =>
    cases h
    rfl
  | cons c rest =>
    have other : c.isDigit = false := stop c rfl
    simp only [scanDecimal, other, Bool.false_eq_true, if_true, if_false, false_and] at h
    split_ifs at h
    all_goals
      cases h
      rfl

theorem scanDecimal_exponentDigits {point : Bool}
    (h : scanDecimal ⟨point, true, true, true⟩ text = .ok (taken, left)) :
    taken ≠ [] ∧ ∀ c ∈ taken, c.isDigit = true := by
  obtain ⟨run, more, rest, isDigit, stop, -, rfl, scanned⟩ := of_scanDecimal h
  cases run with
  | nil =>
    exfalso
    cases rest with
    | nil => cases scanned
    | cons c rest =>
      have other : c.isDigit = false := stop c rfl
      simp only [scanDecimal, other, List.isEmpty_nil, Bool.and_true, Bool.false_eq_true, if_true,
        if_false, not_true_eq_false, and_false] at scanned
      split_ifs at scanned
  | cons c run =>
    have ended : more = [] := scanDecimal_ended stop scanned
    subst ended
    rw [List.append_nil]
    exact ⟨nofun, isDigit⟩

theorem scanDecimal_marked {point : Bool}
    (h : scanDecimal ⟨point, true, true, false⟩ text = .ok (taken, left)) :
    ∃ sign digits, taken = Option.toList sign ++ digits ∧ (∀ c ∈ sign, c = '-' ∨ c = '+') ∧
      digits ≠ [] ∧ ∀ c ∈ digits, c.isDigit = true := by
  obtain ⟨run, more, rest, isDigit, stop, -, rfl, scanned⟩ := of_scanDecimal h
  cases run with
  | nil =>
    cases rest with
    | nil => cases scanned
    | cons c rest =>
      have other : c.isDigit = false := stop c rfl
      simp only [scanDecimal, other, List.isEmpty_nil, Bool.and_true, Bool.false_eq_true, if_true,
        if_false, not_false_eq_true, and_self] at scanned
      split_ifs at scanned
      rename_i isSign
      obtain ⟨⟨digits, left⟩, inner, same⟩ := ok_of_map scanned
      cases same
      obtain ⟨some', all⟩ := scanDecimal_exponentDigits inner
      exact ⟨some c, digits, rfl, by simpa using isSign, some', all⟩
  | cons c run =>
    have ended : more = [] := scanDecimal_ended stop scanned
    subst ended
    exact ⟨none, c :: run, List.append_nil _, nofun, nofun, isDigit⟩

theorem scanDecimal_pointed (stop : Stops Char.isDigit text)
    (h : scanDecimal ⟨true, false, false, false⟩ text = .ok (taken, left)) :
    ∃ x, taken = exponentChars x := by
  cases text with
  | nil =>
    cases h
    exact ⟨none, rfl⟩
  | cons c rest =>
    have other : c.isDigit = false := stop c rfl
    simp only [scanDecimal, other, Bool.false_eq_true, if_true, if_false, false_and] at h
    split_ifs at h with _ isMark
    · obtain ⟨⟨more, left⟩, scanned, same⟩ := ok_of_map h
      cases same
      obtain ⟨sign, digits, rfl, isSign, some', isDigit⟩ := scanDecimal_marked scanned
      exact ⟨some ⟨c, sign, digits, isMark, isSign, some', isDigit⟩, rfl⟩
    all_goals
      cases h
      exact ⟨none, rfl⟩

theorem scanDecimal_whole (stop : Stops Char.isDigit text)
    (h : scanDecimal .initial text = .ok (taken, left)) :
    ∃ fraction x, taken = fractionChars fraction ++ exponentChars x ∧
      ∀ digits ∈ fraction, ∀ c ∈ digits, c.isDigit = true := by
  cases text with
  | nil =>
    cases h
    exact ⟨none, none, rfl, by rintro _ ⟨⟩⟩
  | cons c rest =>
    have other : c.isDigit = false := stop c rfl
    simp only [scanDecimal, DecimalState.initial, other, Bool.false_eq_true, if_false,
      false_and] at h
    split_ifs at h with isPoint isMark
    · obtain ⟨⟨more, left⟩, scanned, same⟩ := ok_of_map h
      cases same
      obtain ⟨run, more, behind, isDigit, stop', -, rfl, pointed⟩ := of_scanDecimal scanned
      obtain ⟨x, rfl⟩ := scanDecimal_pointed stop' pointed
      exact ⟨some run, x, by rw [isPoint]; rfl, by rintro _ ⟨⟩; exact isDigit⟩
    · obtain ⟨⟨more, left⟩, scanned, same⟩ := ok_of_map h
      cases same
      obtain ⟨sign, digits, rfl, isSign, some', isDigit⟩ := scanDecimal_marked scanned
      exact ⟨none, some ⟨c, sign, digits, isMark, isSign, some', isDigit⟩, rfl, by rintro _ ⟨⟩⟩
    all_goals
      cases h
      exact ⟨none, none, rfl, by rintro _ ⟨⟩⟩

theorem scanDecimal_initial {c : Char} (digit : c.isDigit = true)
    (h : scanDecimal .initial (c :: rest) = .ok (taken, left)) :
    ∃ t : DecimalText, taken = t.chars := by
  obtain ⟨run, more, rest', isDigit, stop, whole, rfl, scanned⟩ := of_scanDecimal h
  obtain ⟨fraction, x, rfl, isFraction⟩ := scanDecimal_whole stop scanned
  have some' : run ≠ [] := by
    rintro rfl
    rw [List.nil_append] at whole
    rw [← whole] at stop
    exact absurd digit (by simp [stop c rfl])
  exact ⟨⟨run, fraction, x, some', isDigit, isFraction⟩, rfl⟩

def isDecimalChar (c : Char) : Bool := c.isDigit || c = '.' || c = 'e' || c = 'E'

theorem scanDecimal_stops (stop : Stops isDecimalChar rest) (due : s.digitDue = false) :
    scanDecimal s rest = .ok ([], rest) := by
  cases rest with
  | nil => simp only [scanDecimal, due, Bool.false_eq_true, if_false]
  | cons c rest =>
    have outside : isDecimalChar c = false := stop c rfl
    simp only [isDecimalChar, Bool.or_eq_false_iff, decide_eq_false_iff_not] at outside
    obtain ⟨⟨⟨digit, point⟩, mark⟩, mark'⟩ := outside
    simp only [scanDecimal, due, digit, point, mark, mark', Bool.false_eq_true, false_and, or_self,
      if_false, ite_self]

theorem scanDecimal_exponent {point : Bool} (stop : Stops isDecimalChar rest)
    (x : ExponentText) :
    scanDecimal ⟨point, false, false, false⟩ (x.chars ++ rest) = .ok (x.chars, rest) := by
  have last (sign : Bool) :
      scanDecimal ⟨point, true, true, sign⟩ (x.digits ++ rest) = .ok (x.digits, rest) := by
    have some' : x.digits.isEmpty = false := List.isEmpty_eq_false_iff.mpr x.some'
    rw [scanDecimal_digits x.isDigit, scanDecimal_stops stop (by simp [some'])]
    simp [Except.map]
  have signed : scanDecimal ⟨point, true, true, false⟩ (x.sign.toList ++ (x.digits ++ rest)) =
      .ok (x.sign.toList ++ x.digits, rest) := by
    cases sign : x.sign with
    | none => exact last false
    | some c =>
      have step : scanDecimal ⟨point, true, true, false⟩ (c :: (x.digits ++ rest)) =
          (scanDecimal ⟨point, true, true, true⟩ (x.digits ++ rest)).map
            fun (taken, left) => (c :: taken, left) := by
        rcases x.isSign c sign with rfl | rfl <;> rfl
      exact step.trans (by rw [last true]; rfl)
  have step : scanDecimal ⟨point, false, false, false⟩
      (x.mark :: (x.sign.toList ++ (x.digits ++ rest))) =
        (scanDecimal ⟨point, true, true, false⟩ (x.sign.toList ++ (x.digits ++ rest))).map
          fun (taken, left) => (x.mark :: taken, left) := by
    rcases x.isMark with mark | mark <;> rw [mark] <;> rfl
  rw [ExponentText.chars, List.cons_append, List.append_assoc, step, signed]
  rfl

theorem scanDecimal_exponentChars {point : Bool} (stop : Stops isDecimalChar rest)
    (x : Option ExponentText) :
    scanDecimal ⟨point, false, false, false⟩ (exponentChars x ++ rest) =
      .ok (exponentChars x, rest) := by
  cases x with
  | none => exact scanDecimal_stops stop rfl
  | some x => exact scanDecimal_exponent stop x

theorem scanDecimal_chars (stop : Stops isDecimalChar rest) (t : DecimalText) :
    scanDecimal .initial (t.chars ++ rest) = .ok (t.chars, rest) := by
  have behind : scanDecimal .initial
      (fractionChars t.fraction ++ (exponentChars t.exponent ++ rest)) =
        .ok (fractionChars t.fraction ++ exponentChars t.exponent, rest) := by
    cases part : t.fraction with
    | none => exact scanDecimal_exponentChars stop t.exponent
    | some digits =>
      have step : scanDecimal .initial ('.' :: (digits ++ (exponentChars t.exponent ++ rest))) =
          (scanDecimal ⟨true, false, false, false⟩
            (digits ++ (exponentChars t.exponent ++ rest))).map
              fun (taken, left) => ('.' :: taken, left) := rfl
      refine step.trans ?_
      rw [scanDecimal_digits (t.isFraction digits part)]
      simp only [Bool.false_and, scanDecimal_exponentChars stop]
      rfl
  rw [chars, List.append_assoc, List.append_assoc, scanDecimal_digits t.isDigit]
  have initial : ({ DecimalState.initial with
      digitDue := DecimalState.initial.digitDue && t.whole.isEmpty } : DecimalState) =
        .initial := rfl
  rw [initial, behind]
  rfl

end

theorem unsigned_hexFrom {x : Float} (h : Double.Unsigned x) (digits : List Char) :
    Double.Unsigned (hexFrom x digits) := by
  induction digits generalizing x with
  | nil => exact h
  | cons c digits ih => exact ih (h.mul_sixteen.add (Double.unsigned_ofNat _))

theorem unsigned_hexValue {digits : List Char} (some' : digits ≠ []) :
    Double.Unsigned (hexValue digits) := by
  have zero : Double.Unsigned 0 := by decide +kernel
  rw [hexValue, List.isEmpty_eq_false_iff.mpr some']
  exact unsigned_hexFrom zero digits

theorem unsigned_readDecimal? (t : DecimalText) :
    ∃ r, readDecimal? t.chars = some r ∧ Double.Unsigned r :=
  ⟨_, t.readDecimal?_chars, Double.unsigned_ofMagnitude (Double.nearest_le_infinityBits _)⟩

theorem unsigned_of_readDecimal? {t : DecimalText} {r : Float} (read : readDecimal? t.chars = some r) :
    Double.Unsigned r := by
  obtain ⟨r', read', unsigned⟩ := unsigned_readDecimal? t
  rwa [Option.some.inj (read.symm.trans read')]

end JsonTemplate.Expr

import JsonTemplate.Text.CharClass

namespace JsonTemplate.Text

open ClassMask

def isLetter (c : Char) : Bool := isMember c (lowercase ||| uppercase)

def isWordChar (c : Char) : Bool := isMember c wordDash

theorem isMember_mono {c : Char} {m n : ClassMask} (sub : m &&& n = m) (h : isMember c m = true) :
    isMember c n = true := by
  simp only [isMember, Bool.and_eq_true, bne_iff_ne, ne_eq] at *
  refine ⟨h.1, fun none => h.2 ?_⟩
  have common : asciiClasses c &&& m = asciiClasses c &&& n &&& m := by
    rw [UInt16.and_assoc, UInt16.and_comm n m, sub]
  rw [common, none, UInt16.zero_and]

theorem isWordChar_of_isLetter {c : Char} (h : isLetter c = true) : isWordChar c = true :=
  isMember_mono (by decide) h

theorem isWordChar_of_digit {c : Char} (h : isMember c digit = true) : isWordChar c = true :=
  isMember_mono (by decide) h

theorem not_contains_of_class {class' : Char → Bool} {c : Char} (others : List Char)
    (outside : others.any class' = false) (h : class' c = true) : others.contains c = false := by
  cases member : others.contains c with
  | false => rfl
  | true =>
    exact absurd h (List.any_eq_false.mp outside c (List.contains_iff_mem.mp member))

theorem ascii_forall {p : Char → Prop} (h : ∀ n < asciiLimit, p (Char.ofNat n)) {c : Char}
    (ascii : c.toNat < asciiLimit) : p c := by
  have at' := h c.toNat ascii
  rwa [Char.ofNat_toNat] at at'

theorem ascii_ext {p q : Char → Bool} (left : ∀ c, p c = true → c.toNat < asciiLimit)
    (right : ∀ c, q c = true → c.toNat < asciiLimit)
    (same : ∀ n < asciiLimit, p (Char.ofNat n) = q (Char.ofNat n)) (c : Char) : p c = q c := by
  by_cases small : c.toNat < asciiLimit
  · exact ascii_forall (p := fun c => p c = q c) same small
  · rw [Bool.eq_false_iff.mpr fun inside => small (left c inside),
      Bool.eq_false_iff.mpr fun inside => small (right c inside)]

theorem isMember_eq {mask : ClassMask} {class' : Char → Bool}
    (same : ∀ n < asciiLimit, isMember (Char.ofNat n) mask = class' (Char.ofNat n))
    (ascii : ∀ c, class' c = true → c.toNat < asciiLimit) (c : Char) :
    isMember c mask = class' c := by
  refine ascii_ext (p := fun c => isMember c mask) (fun c member => ?_) ascii same c
  simp only [isMember, Bool.and_eq_true, decide_eq_true_eq] at member
  exact member.1

theorem toNat_lt_of_le {c d : Char} (h : c.val ≤ d.val) (ascii : d.toNat < asciiLimit) :
    c.toNat < asciiLimit :=
  Nat.lt_of_le_of_lt (UInt32.le_iff_toNat_le.mp h) ascii

theorem toNat_lt_of_isDigit {c : Char} (h : c.isDigit = true) : c.toNat < asciiLimit := by
  have bounds := (Bool.and_eq_true _ _).mp h
  exact toNat_lt_of_le (of_decide_eq_true bounds.2) (by decide)

theorem toNat_lt_of_isAlpha {c : Char} (h : c.isAlpha = true) : c.toNat < asciiLimit := by
  rcases (Bool.or_eq_true _ _).mp h with upper | lower
  · have bounds : 'A' ≤ c ∧ c ≤ 'Z' := of_decide_eq_true upper
    exact toNat_lt_of_le bounds.2 (by decide)
  · have bounds := (Bool.and_eq_true _ _).mp lower
    exact toNat_lt_of_le (of_decide_eq_true bounds.2) (by decide)

theorem isMember_digit (c : Char) : isMember c digit = c.isDigit :=
  isMember_eq (by decide +kernel) (fun _ => toNat_lt_of_isDigit) c

theorem isLetter_eq (c : Char) : isLetter c = c.isAlpha :=
  isMember_eq (by decide +kernel) (fun _ => toNat_lt_of_isAlpha) c

theorem isWordChar_eq (c : Char) :
    isWordChar c = (c.isAlpha || c.isDigit || c == '_' || c == '-') := by
  have ascii (c : Char) (inside : (c.isAlpha || c.isDigit || c == '_' || c == '-') = true) :
      c.toNat < asciiLimit := by
    simp only [Bool.or_eq_true, beq_iff_eq] at inside
    obtain ((letter | digit) | rfl) | rfl := inside
    · exact toNat_lt_of_isAlpha letter
    · exact toNat_lt_of_isDigit digit
    · decide
    · decide
  exact isMember_eq (by decide +kernel) ascii c

theorem isDigit_of_isLetter {c : Char} (h : isLetter c = true) : c.isDigit = false := by
  have ascii : c.toNat < asciiLimit := by
    simp only [isLetter, isMember, Bool.and_eq_true, decide_eq_true_eq] at h
    exact h.1
  exact ascii_forall (p := fun c => isLetter c = true → c.isDigit = false) (by decide +kernel)
    ascii h

end JsonTemplate.Text

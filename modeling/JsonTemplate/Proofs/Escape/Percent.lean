import JsonTemplate.Escape.Uri
import JsonTemplate.Proofs.Text.CharClass
import Mathlib.Data.List.Basic

namespace JsonTemplate.Escape

open JsonTemplate.Text

/-- The bytes that a percent-encoded text stands for: a triple stands for its byte, and any other
character for its UTF-8 bytes. There are none where a percent sign starts no triple. -/
def percentDecode : List Char → Option (List UInt8)
  | [] => some []
  | c :: rest =>
    if c = '%' then
      match rest with
      | high :: low :: others =>
        match hexDigitValue? high, hexDigitValue? low with
        | some h, some l => (percentDecode others).map (UInt8.ofNat (h * 16 + l) :: ·)
        | _, _ => none
      | _ => none
    else (percentDecode rest).map (String.utf8EncodeChar c ++ ·)

/-- A plus sign of a form stands for a space. -/
def plusToSpace (c : Char) : Char := if c = '+' then ' ' else c

def isUpperHexDigit (c : Char) : Prop := c ∈ "0123456789ABCDEF".toList

/-- Texts of characters of a class, other than the percent sign, and of triples. -/
inductive Encoded (keep : Char → Bool) : List Char → Prop
  | nil : Encoded keep []
  | kept {c : Char} {rest : List Char} (kept : keep c = true) (other : c ≠ '%')
      (more : Encoded keep rest) : Encoded keep (c :: rest)
  | triple {high low : Char} {rest : List Char} (high' : isUpperHexDigit high)
      (low' : isUpperHexDigit low) (more : Encoded keep rest) :
      Encoded keep ('%' :: high :: low :: rest)

theorem hexDigitValue?_upper : ∀ n < 16, hexDigitValue? (upperHexDigitChar n) = some n := by
  decide

theorem isUpperHexDigit_upper : ∀ n < 16, isUpperHexDigit (upperHexDigitChar n) := by
  unfold isUpperHexDigit
  decide

theorem upper_ne_plus : ∀ n < 16, upperHexDigitChar n ≠ '+' := by decide

section

variable (b : UInt8)

theorem high_lt : b.toNat / 16 < 16 := by
  have := b.toNat_lt
  omega

theorem low_lt : b.toNat % 16 < 16 := Nat.mod_lt _ (by decide)

theorem percentDecode_byte (rest : List Char) :
    percentDecode (percentByte b ++ rest) = (percentDecode rest).map (b :: ·) := by
  have halves : b.toNat / 16 * 16 + b.toNat % 16 = b.toNat := by omega
  simp [percentByte, percentDecode, hexDigitValue?_upper _ (high_lt b),
    hexDigitValue?_upper _ (low_lt b), halves]

theorem plusToSpace_byte : (percentByte b).map plusToSpace = percentByte b := by
  simp [percentByte, plusToSpace, upper_ne_plus _ (high_lt b), upper_ne_plus _ (low_lt b)]

theorem Encoded.byte {keep : Char → Bool} {rest : List Char} (more : Encoded keep rest) :
    Encoded keep (percentByte b ++ rest) :=
  .triple (isUpperHexDigit_upper _ (high_lt b)) (isUpperHexDigit_upper _ (low_lt b)) more

end

theorem percentDecode_other {c : Char} (other : c ≠ '%') (rest : List Char) :
    percentDecode (c :: rest) = (percentDecode rest).map (String.utf8EncodeChar c ++ ·) := by
  rw [percentDecode.eq_def]
  simp only [other, if_false]

theorem percentDecode_bytes (bytes : List UInt8) (rest : List Char) :
    percentDecode (bytes.flatMap percentByte ++ rest) = (percentDecode rest).map (bytes ++ ·) := by
  induction bytes with
  | nil => simp
  | cons b bytes ih =>
    rw [List.flatMap_cons, List.append_assoc, percentDecode_byte, ih, Option.map_map]
    rfl

theorem plusToSpace_bytes (bytes : List UInt8) :
    (bytes.flatMap percentByte).map plusToSpace = bytes.flatMap percentByte := by
  induction bytes with
  | nil => rfl
  | cons b bytes ih => rw [List.flatMap_cons, List.map_append, plusToSpace_byte, ih]

theorem Encoded.bytes {keep : Char → Bool} {rest : List Char} (bytes : List UInt8)
    (more : Encoded keep rest) : Encoded keep (bytes.flatMap percentByte ++ rest) := by
  induction bytes with
  | nil => exact more
  | cons b bytes ih =>
    rw [List.flatMap_cons, List.append_assoc]
    exact ih.byte b

section

variable {keep : Char → Bool}

theorem percentDecode_encode (escapes : keep '%' = false) (text : List Char) :
    percentDecode (percentEncode keep text) = some (text.flatMap String.utf8EncodeChar) := by
  induction text with
  | nil => rfl
  | cons c rest ih =>
    rw [percentEncode] at ih
    rw [percentEncode, List.flatMap_cons, List.flatMap_cons]
    by_cases kept : keep c = true
    · have other : c ≠ '%' := ne_of_apply_ne keep (by simp [kept, escapes])
      rw [if_pos kept, List.singleton_append, percentDecode_other other, ih]
      rfl
    · rw [if_neg kept, percentChar, percentDecode_bytes, ih]
      rfl

theorem encoded_encode (escapes : keep '%' = false) (text : List Char) :
    Encoded keep (percentEncode keep text) := by
  induction text with
  | nil => exact .nil
  | cons c rest ih =>
    rw [percentEncode, List.flatMap_cons]
    by_cases kept : keep c = true
    · have other : c ≠ '%' := ne_of_apply_ne keep (by simp [kept, escapes])
      rw [if_pos kept]
      exact .kept kept other ih
    · rw [if_neg kept]
      exact ih.bytes _

end

/-- The characters of an encoded form. -/
def isFormText (c : Char) : Bool := isFormChar c || c = '+'

def isFormOrSpace (c : Char) : Bool := c = ' ' || isFormChar c

theorem isFormChar_plus : isFormChar '+' = false := by decide

theorem urlEncode_spaced (text : List Char) :
    (urlEncode text).map plusToSpace = percentEncode isFormOrSpace text := by
  rw [urlEncode, percentEncode, List.map_flatMap]
  refine List.flatMap_congr fun c _ => ?_
  by_cases space : c = ' '
  · subst space
    rfl
  · by_cases kept : isFormChar c = true
    · have other : c ≠ '+' := ne_of_apply_ne isFormChar (by simp [kept, isFormChar_plus])
      simp [isFormOrSpace, space, kept, plusToSpace, other]
    · have bytes := plusToSpace_bytes (String.utf8EncodeChar c)
      simp [isFormOrSpace, space, kept, percentChar, bytes]

theorem encoded_urlEncode (text : List Char) : Encoded isFormText (urlEncode text) := by
  induction text with
  | nil => exact .nil
  | cons c rest ih =>
    rw [urlEncode, List.flatMap_cons]
    by_cases space : c = ' '
    · rw [if_pos space]
      exact .kept (by decide) (by decide) ih
    · rw [if_neg space]
      by_cases kept : isFormChar c = true
      · have other : c ≠ '%' := by
          rintro rfl
          exact absurd kept (by decide)
        rw [if_pos kept]
        exact .kept (by simp [isFormText, kept]) other ih
      · rw [if_neg kept]
        exact ih.bytes _

def componentCharacters : String :=
  "!'()*-.0123456789ABCDEFGHIJKLMNOPQRSTUVWXYZ_abcdefghijklmnopqrstuvwxyz~"

def uriCharacters : String :=
  "!#$&'()*+,-./0123456789:;=?@ABCDEFGHIJKLMNOPQRSTUVWXYZ_abcdefghijklmnopqrstuvwxyz~"

def formCharacters : String :=
  "*+-.0123456789ABCDEFGHIJKLMNOPQRSTUVWXYZ_abcdefghijklmnopqrstuvwxyz"

theorem toNat_lt_of_all {chars : List Char} (listed : chars.all (·.toNat < asciiLimit) = true)
    {c : Char} (member : chars.contains c = true) : c.toNat < asciiLimit :=
  of_decide_eq_true (List.all_eq_true.mp listed c (List.contains_iff_mem.mp member))

theorem ascii_or {p : Char → Bool} (ascii : ∀ c, p c = true → c.toNat < asciiLimit)
    {others : List Char} (listed : others.all (·.toNat < asciiLimit) = true) (c : Char)
    (h : (p c || others.contains c) = true) : c.toNat < asciiLimit := by
  rcases (Bool.or_eq_true _ _).mp h with inside | member
  · exact ascii c inside
  · exact toNat_lt_of_all listed member

theorem isAlphanum_ascii (c : Char) (h : c.isAlphanum = true) : c.toNat < asciiLimit := by
  rcases (Bool.or_eq_true _ _).mp h with letter | digit
  · exact toNat_lt_of_isAlpha letter
  · exact toNat_lt_of_isDigit digit

theorem isUnreserved_ascii : ∀ c, isUnreserved c = true → c.toNat < asciiLimit :=
  ascii_or isAlphanum_ascii (by decide)

theorem isUriChar_ascii : ∀ c, isUriChar c = true → c.toNat < asciiLimit :=
  ascii_or isUnreserved_ascii (by decide)

theorem isFormText_ascii (c : Char) (h : isFormText c = true) : c.toNat < asciiLimit := by
  rcases (Bool.or_eq_true _ _).mp h with inside | plus
  · exact ascii_or isAlphanum_ascii (by decide) c inside
  · rw [of_decide_eq_true plus]
    decide

theorem class_iff_mem {p : Char → Bool} (ascii : ∀ c, p c = true → c.toNat < asciiLimit)
    {chars : List Char} (listed : chars.all (·.toNat < asciiLimit) = true)
    (same : ∀ n < asciiLimit, p (Char.ofNat n) = chars.contains (Char.ofNat n)) (c : Char) :
    p c = true ↔ c ∈ chars := by
  rw [ascii_ext ascii (fun c => toNat_lt_of_all listed) same c, List.contains_iff_mem]

theorem isUnreserved_iff (c : Char) : isUnreserved c = true ↔ c ∈ componentCharacters.toList :=
  class_iff_mem isUnreserved_ascii (by decide) (by decide) c

theorem isUriChar_iff (c : Char) : isUriChar c = true ↔ c ∈ uriCharacters.toList :=
  class_iff_mem isUriChar_ascii (by decide) (by decide) c

theorem isFormText_iff (c : Char) : isFormText c = true ↔ c ∈ formCharacters.toList :=
  class_iff_mem isFormText_ascii (by decide) (by decide) c

/-- All three encoders keep what a text stands for, each within its own characters. A form has to
have spaces in place of its plus signs first. -/
theorem encoders_lossless (text : List Char) :
    (percentDecode (encodeUri text) = some (text.flatMap String.utf8EncodeChar) ∧
      Encoded isUriChar (encodeUri text)) ∧
    (percentDecode (encodeUriComponent text) = some (text.flatMap String.utf8EncodeChar) ∧
      Encoded isUnreserved (encodeUriComponent text)) ∧
    percentDecode ((urlEncode text).map plusToSpace) =
        some (text.flatMap String.utf8EncodeChar) ∧
      Encoded isFormText (urlEncode text) := by
  have uri : isUriChar '%' = false := by decide
  have component : isUnreserved '%' = false := by decide
  have form : isFormOrSpace '%' = false := by decide
  refine ⟨⟨?_, ?_⟩, ⟨?_, ?_⟩, ?_, ?_⟩
  · exact percentDecode_encode uri text
  · exact encoded_encode uri text
  · exact percentDecode_encode component text
  · exact encoded_encode component text
  · rw [urlEncode_spaced]
    exact percentDecode_encode form text
  · exact encoded_urlEncode text

end JsonTemplate.Escape

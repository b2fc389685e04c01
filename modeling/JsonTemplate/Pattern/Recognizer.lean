import JsonTemplate.Text.CharClass

namespace JsonTemplate.Pattern

open JsonTemplate.Text

inductive CharTest where
  | any
  | oneOf (chars : List Char)
  | classes (mask : ClassMask)
  | range (low high : Char)
  | space
  | non (test : CharTest)
  deriving Repr, DecidableEq

namespace CharTest

def accepts : CharTest → Char → Bool
  | any, _ => true
  | oneOf chars, c => chars.contains c
  | classes mask, c => isMember c mask
  | range low high, c => low ≤ c && c ≤ high
  | space, c => isWideSpace c
  | non test, c => !test.accepts c

end CharTest

/-- A pattern over the front of a text. In `repeated`, a bound of zero is no bound. -/
inductive Recognizer where
  | char (test : CharTest)
  | literal (text : List Char)
  | decimal
  | sequence (parts : List Recognizer)
  | choice (alternatives : List Recognizer)
  | repeated (part : Recognizer) (least most : Nat)
  | lookAhead (part : Recognizer)

def longer : Option Nat → Option Nat → Option Nat
  | none, m => m
  | m, none => m
  | some m, some n => some (max m n)

def decimalLength : Bool → List Char → Nat
  | _, [] => 0
  | pointSeen, c :: rest =>
    if c = '.' then if pointSeen then 0 else decimalLength true rest + 1
    else if c.isDigit then decimalLength pointSeen rest + 1
    else 0

/-- Digits with at most one point; a point alone is no decimal. -/
def matchDecimal (text : List Char) : Option Nat :=
  match decimalLength false text with
  | 0 => none
  | 1 => if text.head? = some '.' then none else some 1
  | n + 2 => some (n + 2)

/-- Rounds of `step` from the front of the text: how many matched and how much they took in all.
The rounds end when `step` fails, takes nothing, or `most` of them are done. -/
def rounds (step : List Char → Option Nat) (most done : Nat) (text : List Char) : Nat × Nat :=
  match step text with
  | none => (done, 0)
  | some n =>
    if _h : n = 0 ∨ done + 1 = most ∨ text = [] then (done + 1, n)
    else
      let (count, taken) := rounds step most (done + 1) (text.drop n)
      (count, n + taken)
termination_by text.length
decreasing_by
  have : 0 < text.length := by
    cases text <;> simp_all
  simp only [List.length_drop]
  omega

namespace Recognizer

mutual

def matchLength : Recognizer → List Char → Option Nat
  | char test, text =>
    match text with
    | [] => none
    | c :: _ => if test.accepts c then some 1 else none
  | literal chars, text => if chars.isPrefixOf text then some chars.length else none
  | decimal, text => matchDecimal text
  | sequence parts, text => matchAll parts text
  | choice alternatives, text => matchLongest alternatives text
  | repeated part least most, text =>
    let (count, taken) := rounds (fun rest => part.matchLength rest) most 0 text
    if count < least then none else some taken
  | lookAhead part, text => (part.matchLength text).map fun _ => 0

def matchAll : List Recognizer → List Char → Option Nat
  | [], _ => some 0
  | part :: parts, text =>
    match part.matchLength text with
    | none => none
    | some n => (matchAll parts (text.drop n)).map (n + ·)

def matchLongest : List Recognizer → List Char → Option Nat
  | [], _ => none
  | part :: parts, text => longer (part.matchLength text) (matchLongest parts text)

end

def split? (r : Recognizer) (text : List Char) : Option (List Char × List Char) :=
  (r.matchLength text).map text.splitAt

def oneOf (chars : String) : Recognizer := .char (.oneOf chars.toList)
def noneOf (chars : String) : Recognizer := .char (.non (.oneOf chars.toList))
def classes (mask : ClassMask) : Recognizer := .char (.classes mask)
def text (chars : String) : Recognizer := .literal chars.toList
def digit : Recognizer := classes .digit
def hexDigit : Recognizer := classes .hexDigit
def word : Recognizer := classes .word
def wordDash : Recognizer := classes .wordDash

def nonAscii : Recognizer := .char (.non (.range '\x00' '\u009f'))

def oneOrMore (part : Recognizer) : Recognizer := .repeated part 1 0
def zeroOrMore (part : Recognizer) : Recognizer := .repeated part 0 0
def optional (part : Recognizer) : Recognizer := .repeated part 0 1
def digits : Recognizer := oneOrMore digit

end Recognizer

end JsonTemplate.Pattern

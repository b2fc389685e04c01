import JsonTemplate.Json.Value
import JsonTemplate.Text.Offset

namespace JsonTemplate.Json

open JsonTemplate.Number JsonTemplate.Text

inductive ReadCause where
  | endInList
  | endInObject
  | endInString
  | endInValue
  | expectedColon
  | expectedListCommaOrEnd
  | expectedObjectCommaOrEnd
  | expectedIdent
  | expectedValue
  | invalidEscape
  | invalidNumber
  | numberOutOfRange
  | controlCharacter
  | keyMustBeString
  | loneSurrogate
  | trailingComma
  | trailingCharacters
  | unfinishedPair
  | nestedTooDeep
  deriving Repr, DecidableEq

def ReadCause.message : ReadCause → String
  | endInList => "EOF while parsing a list"
  | endInObject => "EOF while parsing an object"
  | endInString => "EOF while parsing a string"
  | endInValue => "EOF while parsing a value"
  | expectedColon => "expected `:`"
  | expectedListCommaOrEnd => "expected `,` or `]`"
  | expectedObjectCommaOrEnd => "expected `,` or `\x7d`"
  | expectedIdent => "expected ident"
  | expectedValue => "expected value"
  | invalidEscape => "invalid escape"
  | invalidNumber => "invalid number"
  | numberOutOfRange => "number out of range"
  | controlCharacter => "control character (\\u0000-\\u001F) found while parsing a string"
  | keyMustBeString => "key must be a string"
  | loneSurrogate => "lone leading surrogate in hex escape"
  | trailingComma => "trailing comma"
  | trailingCharacters => "trailing characters"
  | unfinishedPair => "unexpected end of hex escape"
  | nestedTooDeep => "recursion limit exceeded"

/-- A failure in front of `rest`. The bytes of `rest` that were looked at count as read, which may
be a part of a character. -/
structure ReadFailure where
  cause : ReadCause
  rest : List Char
  seenBytes : Nat

abbrev Front (α : Type) := α × List Char

def failNext {α : Type} (cause : ReadCause) (rest : List Char) : Except ReadFailure α :=
  .error ⟨cause, rest, 1⟩

def failHere {α : Type} (cause : ReadCause) (rest : List Char) : Except ReadFailure α :=
  .error ⟨cause, rest, 0⟩

def isBlank (c : Char) : Bool := c = ' ' || c = '\n' || c = '\t' || c = '\r'

def skipBlank (text : List Char) : List Char := text.dropWhile isBlank

structure NumberText where
  negative : Bool
  whole : List Char
  fraction : Option (List Char)
  exponent : Option Int

def accumulate : Nat → List Char → Nat × Nat × List Char
  | value, [] => (value, 0, [])
  | value, c :: rest =>
    let next := value * 10 + digitsValue [c]
    if next < 0x10000000000000000 then
      let (final, taken, left) := accumulate next rest
      (final, taken + 1, left)
    else (value, 0, c :: rest)

def powerOfTen (n : Nat) : Float := Double.ofDecimal false 1 n

/-- Scales a double by a power of ten in double arithmetic: one multiplication or division, after
divisions by 1e308 for very small exponents. Overflow has no result. -/
def scale : Nat → Float → Int → Option Float
  | 0, _, _ => none
  | fuel + 1, x, e =>
    if e.natAbs ≤ 308 then
      if 0 ≤ e then
        let y := x * powerOfTen e.natAbs
        if Double.isFinite y then some y else none
      else some (x / powerOfTen e.natAbs)
    else if x == 0 then some x
    else if 0 ≤ e then none
    else scale fuel (x / powerOfTen 308) (e + 308)

inductive DoubleRule where
  | nearest
  | scaled
  deriving Repr, DecidableEq

namespace NumberText

def clampExponent (e : Int) : Int := max (-0x80000000) (min 0x7fffffff e)

def toDouble? (rule : DoubleRule) (t : NumberText) : Option Float :=
  let fraction := t.fraction.getD []
  let exponent := t.exponent.getD 0
  match rule with
  | .nearest =>
    let x := Double.ofDecimal t.negative (digitsValue (t.whole ++ fraction))
      (exponent - fraction.length)
    if Double.isFinite x then some x else none
  | .scaled =>
    let (w, _, unread) := accumulate 0 t.whole
    let (value, taken, _) := accumulate w fraction
    let start := Double.ofInt value
    let e := clampExponent (exponent + unread.length - taken)
    (scale 4 start e).map fun x => if t.negative then -x else x

/-- The value of a number text: an integer where there is neither point nor exponent and it fits 64
bits, save for negative zero. -/
def toNum? (rule : DoubleRule) (t : NumberText) : Option Num :=
  match t.fraction, t.exponent with
  | none, none =>
    let n := digitsValue t.whole
    if t.negative then
      if n = 0 ∨ 0x8000000000000000 < n then (t.toDouble? rule).map .double
      else some (.int (-(n : Int)))
    else if n < 0x10000000000000000 then some (.int n)
    else (t.toDouble? rule).map .double
  | _, _ => (t.toDouble? rule).map .double

end NumberText

def readExponent (text : List Char) : Except ReadFailure (Front (Option Int)) :=
  match text with
  | c :: afterMark =>
    if c = 'e' ∨ c = 'E' then
      let (negative, body) := splitSign afterMark
      match body with
      | [] => failHere .endInValue []
      | d :: _ =>
        if d.isDigit then
          let digits := body.takeWhile Char.isDigit
          .ok (some (withSign negative (digitsValue digits)), body.dropWhile Char.isDigit)
        else failNext .invalidNumber body
    else .ok (none, text)
  | [] => .ok (none, text)

def readFraction (text : List Char) : Except ReadFailure (Front (Option (List Char))) :=
  match text with
  | '.' :: body =>
    let digits := body.takeWhile Char.isDigit
    if digits.isEmpty then
      failNext (if body.isEmpty then .endInValue else .invalidNumber) body
    else .ok (some digits, body.dropWhile Char.isDigit)
  | _ => .ok (none, text)

def readWhole (text : List Char) : Except ReadFailure (Front (List Char)) :=
  match text with
  | [] => failHere .endInValue []
  | '0' :: rest =>
    match rest with
    | d :: _ => if d.isDigit then failNext .invalidNumber rest else .ok (['0'], rest)
    | [] => .ok (['0'], rest)
  | c :: _ =>
    if c.isDigit then .ok (text.takeWhile Char.isDigit, text.dropWhile Char.isDigit)
    else failNext .invalidNumber text

def pastExponentLimit (value : Nat) : List Char → Option (List Char)
  | [] => none
  | c :: rest =>
    if c.isDigit then
      let next := value * 10 + digitsValue [c]
      if 0x80000000 ≤ next then some rest else pastExponentLimit next rest
    else none

/-- Where a number that is out of range stops being read: at the digit with which its exponent
leaves thirty-two bits, or at its end. -/
def overflowPoint (exponent : Option Int) (exponentText rest : List Char) : List Char :=
  match exponent with
  | none => rest
  | some _ => (pastExponentLimit 0 (splitSign (exponentText.drop 1)).2).getD rest

def readNumber (rule : DoubleRule) (negative : Bool) (text : List Char) :
    Except ReadFailure (Front Num) := do
  let (whole, afterWhole) ← readWhole text
  let (fraction, afterFraction) ← readFraction afterWhole
  let (exponent, rest) ← readExponent afterFraction
  match (NumberText.mk negative whole fraction exponent).toNum? rule with
  | some n => .ok (n, rest)
  | none => failHere .numberOutOfRange (overflowPoint exponent afterFraction rest)

def readUnit (text : List Char) : Except ReadFailure (Front Nat) :=
  let four := takeBytes 4 text
  if byteLength (text.take 4) < 4 then failHere .endInString []
  else
    match four.map hexDigitValue? with
    | [some a, some b, some c, some d] =>
      .ok (((a * 16 + b) * 16 + c) * 16 + d, text.drop 4)
    | _ => .error ⟨.invalidEscape, text, 4⟩

def readEscape : List Char → Except ReadFailure (Front Char)
  | [] => failHere .endInString []
  | '"' :: rest => .ok ('"', rest)
  | '\\' :: rest => .ok ('\\', rest)
  | '/' :: rest => .ok ('/', rest)
  | 'b' :: rest => .ok ('\x08', rest)
  | 'f' :: rest => .ok ('\x0c', rest)
  | 'n' :: rest => .ok ('\n', rest)
  | 'r' :: rest => .ok ('\r', rest)
  | 't' :: rest => .ok ('\t', rest)
  | 'u' :: rest => do
    let (high, afterHigh) ← readUnit rest
    if 0xdc00 ≤ high ∧ high ≤ 0xdfff then failHere .loneSurrogate afterHigh
    else if high < 0xd800 ∨ 0xdbff < high then .ok (Char.ofNat high, afterHigh)
    else
      match afterHigh with
      | [] => failHere .endInString []
      | '\\' :: [] => failHere .endInString []
      | '\\' :: 'u' :: body =>
        let (low, afterLow) ← readUnit body
        if low < 0xdc00 ∨ 0xdfff < low then failHere .loneSurrogate afterLow
        else .ok (Char.ofNat ((high - 0xd800) * 0x400 + (low - 0xdc00) + 0x10000), afterLow)
      | '\\' :: others => failNext .unfinishedPair others
      | others => failNext .unfinishedPair others
  | others => failNext .invalidEscape others

/-- Reads the characters of a string up to its closing quote. Each step reads at least one
character, so the length of the text bounds the steps. -/
def readString : Nat → List Char → List Char → Except ReadFailure (Front String)
  | 0, _, text => failHere .endInString text
  | fuel + 1, done, text =>
    match text with
    | [] => failHere .endInString []
    | '"' :: rest => .ok (String.ofList done.reverse, rest)
    | '\\' :: rest => do
      let (c, afterEscape) ← readEscape rest
      readString fuel (c :: done) afterEscape
    | c :: rest =>
      if c.toNat < 0x20 then failHere .controlCharacter rest
      else readString fuel (c :: done) rest

def readWord (value : Value) : List Char → List Char → Except ReadFailure (Front Value)
  | [], text => .ok (value, text)
  | _ :: _, [] => failHere .endInValue []
  | w :: word, c :: rest =>
    if c = w then readWord value word rest else failNext .expectedIdent (c :: rest)

structure ReadRules where
  depthLimit : Option Nat
  double : DoubleRule

def ReadRules.standard : ReadRules := ⟨none, .nearest⟩

def ReadRules.documents : ReadRules := ⟨some 128, .scaled⟩

def ReadRules.refuses (rules : ReadRules) (depth : Nat) : Bool :=
  match rules.depthLimit with
  | none => false
  | some limit => limit ≤ depth

def readListEnd (text : List Char) : Except ReadFailure (Front Bool) :=
  match skipBlank text with
  | [] => failNext .endInList []
  | ']' :: rest => .ok (true, rest)
  | ',' :: rest =>
    match skipBlank rest with
    | [] => failNext .endInValue []
    | ']' :: others => failNext .trailingComma (']' :: others)
    | others => .ok (false, others)
  | others => failNext .expectedListCommaOrEnd others

def readObjectEnd (text : List Char) : Except ReadFailure (Front Bool) :=
  match skipBlank text with
  | [] => failNext .endInObject []
  | '}' :: rest => .ok (true, rest)
  | ',' :: rest =>
    match skipBlank rest with
    | [] => failNext .endInValue []
    | '"' :: others => .ok (false, others)
    | '}' :: others => failNext .trailingComma ('}' :: others)
    | others => failNext .keyMustBeString others
  | others => failNext .expectedObjectCommaOrEnd others

def readColon (text : List Char) : Except ReadFailure (Front Unit) :=
  match skipBlank text with
  | [] => failNext .endInObject []
  | ':' :: rest => .ok ((), rest)
  | others => failNext .expectedColon others

mutual

/-- Reads a value. `depth` counts the containers around it. -/
def readValue (rules : ReadRules) : Nat → Nat → List Char → Except ReadFailure (Front Value)
  | 0, _, text => failNext .endInValue text
  | fuel + 1, depth, text =>
    match skipBlank text with
    | [] => failNext .endInValue []
    | 'n' :: rest => readWord .null ['u', 'l', 'l'] rest
    | 't' :: rest => readWord (.bool true) ['r', 'u', 'e'] rest
    | 'f' :: rest => readWord (.bool false) ['a', 'l', 's', 'e'] rest
    | '"' :: rest => do
      let (s, others) ← readString (rest.length + 1) [] rest
      .ok (.string s, others)
    | '[' :: rest =>
      if rules.refuses (depth + 1) then failNext .nestedTooDeep ('[' :: rest)
      else
        match skipBlank rest with
        | [] => failNext .endInList []
        | ']' :: others => .ok (.array [], others)
        | others => do
          let (items, left) ← readItems rules fuel (depth + 1) others
          .ok (.array items, left)
    | '{' :: rest =>
      if rules.refuses (depth + 1) then failNext .nestedTooDeep ('{' :: rest)
      else
        match skipBlank rest with
        | [] => failNext .endInObject []
        | '}' :: others => .ok (.object [], others)
        | '"' :: others => do
          let (members, left) ← readMembers rules fuel (depth + 1) others
          .ok (.object (Value.ofMembers members), left)
        | others => failNext .keyMustBeString others
    | '-' :: rest => do
      let (n, others) ← readNumber rules.double true rest
      .ok (.number n, others)
    | c :: rest =>
      if c.isDigit then do
        let (n, others) ← readNumber rules.double false (c :: rest)
        .ok (.number n, others)
      else failNext .expectedValue (c :: rest)

def readItems (rules : ReadRules) :
    Nat → Nat → List Char → Except ReadFailure (Front (List Value))
  | 0, _, text => failNext .endInList text
  | fuel + 1, depth, text => do
    let (item, afterItem) ← readValue rules fuel depth text
    let (ended, rest) ← readListEnd afterItem
    if ended then .ok ([item], rest)
    else
      let (items, left) ← readItems rules fuel depth rest
      .ok (item :: items, left)

def readMembers (rules : ReadRules) :
    Nat → Nat → List Char → Except ReadFailure (Front (List (String × Value)))
  | 0, _, text => failNext .endInObject text
  | fuel + 1, depth, text => do
    let (name, afterName) ← readString (text.length + 1) [] text
    let ((), afterColon) ← readColon afterName
    let (value, afterValue) ← readValue rules fuel depth afterColon
    let (ended, rest) ← readObjectEnd afterValue
    if ended then .ok ([(name, value)], rest)
    else
      let (members, left) ← readMembers rules fuel depth rest
      .ok ((name, value) :: members, left)

end

structure ReadError where
  cause : ReadCause
  line : Nat
  column : Nat

def ReadError.message (e : ReadError) : String :=
  s!"{e.cause.message} at line {e.line} column {e.column}"

def ReadFailure.locate (text : List Char) (f : ReadFailure) : ReadError :=
  let whole := takeBytes f.seenBytes f.rest
  let read := text.take (text.length - f.rest.length) ++ whole
  let part := min f.seenBytes (byteLength f.rest) - byteLength whole
  ⟨f.cause, 1 + read.count '\n', byteLength (read.reverse.takeWhile (· ≠ '\n')) + part⟩

/-- Reads a whole text as one value, with white space around it. Each call of the reading functions
that is not the last on a path has read a character, so twice the length bounds their depth. -/
def Value.read (rules : ReadRules) (text : List Char) : Except ReadError Value :=
  match readValue rules (2 * text.length + 2) 0 text with
  | .error f => .error (f.locate text)
  | .ok (value, rest) =>
    match skipBlank rest with
    | [] => .ok value
    | others => .error ((⟨.trailingCharacters, others, 1⟩ : ReadFailure).locate text)

def Value.readDocument (text : String) : Except ReadError Value :=
  Value.read .documents text.toList

end JsonTemplate.Json

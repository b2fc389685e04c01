import JsonTemplate.Expr.Token
import JsonTemplate.Pattern.Tokens
import JsonTemplate.Text.Offset

namespace JsonTemplate.Expr

open JsonTemplate.Number JsonTemplate.Text JsonTemplate.Pattern

inductive LexError where
  | decimal (e : DecimalError)
  | hexDigits
  | hexEscape
  | unicodeEscape
  | bareNewline (c : Char)
  | unterminated
  | unexpected (c : Char) (offset : Nat)
  | invalidFunction (name : String)
  | tooManyTokens (limit : Nat)
  deriving Repr, DecidableEq

def charName (c : Char) : String :=
  if c = '\x08' then "backspace"
  else if c = '\x0c' then "form feed"
  else if c = '\n' then "line feed"
  else if c = '\r' then "carriage return"
  else if c = '\t' then "tab"
  else if c.toNat ≤ 0x1f then "control character"
  else "character"

/-- A character in messages: printable ASCII as it is, quotes and backslash behind a backslash,
anything else by its code point. -/
def showChar (c : Char) : String :=
  if c = '\t' then "\\t"
  else if c = '\r' then "\\r"
  else if c = '\n' then "\\n"
  else if c = '\'' then "\\'"
  else if c = '"' then "\\\""
  else if c = '\\' then "\\\\"
  else if 0x20 ≤ c.toNat ∧ c.toNat ≤ 0x7e then String.ofList [c]
  else "\\u\x7b" ++ String.ofList (Nat.toDigits 16 c.toNat) ++ "\x7d"

def LexError.message : LexError → String
  | decimal e => e.message
  | hexDigits => "Expected digits after start of hex number"
  | hexEscape => "Invalid 2-char hex escape found"
  | unicodeEscape => "Invalid unicode escape found"
  | bareNewline c => s!"Illegal bare {charName c} character in string literal"
  | unterminated => "Unterminated string"
  | unexpected c offset => s!"Unexpected {charName c} at {offset}: {showChar c}"
  | invalidFunction name => s!"Invalid function: {name}"
  | tooManyTokens limit =>
    s!"Expression exceeds the maximum number of allowed tokens: {limit}"

def isBlank (c : Char) : Bool := [' ', '\n', '\t', '\r', '\u00a0'].contains c

/-- The character of an escaped code point; control characters and invalid code points give a
space. -/
def escapedChar (code : Nat) : Char :=
  if code ≤ 0x08 ∨ (0x0e ≤ code ∧ code < 0x20) then ' '
  else if h : code.isValidChar then Char.ofNatAux code h
  else ' '

def hexNat (digits : List Char) : Nat :=
  digits.foldl (fun n c => n * 16 + (hexDigitValue? c).getD 0) 0

def escapeDigits? (count : Nat) (text : List Char) : Option (Char × List Char) :=
  let digits := text.take count
  if digits.length = count ∧ digits.all isHexDigit then
    some (escapedChar (hexNat digits), text.drop count)
  else none

/-- Reads the rest of an escape. An escaped character without a meaning of its own stands for
itself. Two-digit escapes ask for a character after them. -/
def readEscape (c : Char) (rest : List Char) : Except LexError (Char × List Char) :=
  if c = 'n' then .ok ('\n', rest)
  else if c = 't' then .ok ('\t', rest)
  else if c = 'f' then .ok ('\x0c', rest)
  else if c = 'r' then .ok ('\r', rest)
  else if c = 'x' then
    match escapeDigits? 2 rest with
    | some (_, []) => .error .hexEscape
    | some (d, left) => .ok (d, left)
    | none => .error .hexEscape
  else if c = 'u' ∨ c = 'U' then
    match escapeDigits? (if c = 'u' then 4 else 8) rest with
    | some found => .ok found
    | none => .error .unicodeEscape
  else .ok (c, rest)

def readString (quote : Char) : Nat → List Char → List Char → Except LexError (String × List Char)
  | 0, _, _ => .error .unterminated
  | fuel + 1, done, text =>
    match text with
    | [] => .error .unterminated
    | '\\' :: c :: rest => do
      let (d, left) ← readEscape c rest
      readString quote fuel (d :: done) left
    | c :: rest =>
      if c = quote then .ok (String.ofList done.reverse, rest)
      else if c = '\n' ∨ c = '\r' then .error (.bareNewline c)
      else readString quote fuel (c :: done) rest

/-- The spellings of operators, longer ones before their beginnings. A sign is read as a binary
operator first. -/
def spellings : List Operator :=
  [.strictEqual, .strictNotEqual, .power, .equal, .notEqual, .shiftLeft, .lessEqual, .shiftRight,
    .greaterEqual, .logicalAnd, .logicalOr, .multiply, .divide, .modulus, .add, .subtract, .assign,
    .logicalNot, .less, .greater, .bitwiseNot, .bitwiseAnd, .bitwiseOr, .bitwiseXor, .comma,
    .semicolon, .leftParen, .rightParen]

def operatorAt? (text : List Char) : Option (Operator × List Char) :=
  (spellings.find? fun o => o.symbol.toList.isPrefixOf text).map fun o =>
    (o, text.drop o.symbol.length)

def nameToken (name : List Char) : Token :=
  let var := VarName.parse name
  match var with
  | .path [.key k] => (Token.constant? k).getD (.var var)
  | _ => .var var

/-- Reads one token off the front of a text; white space gives none. `size` is the length of the
source in bytes, from which errors compute their place. -/
def readToken (size : Nat) (text : List Char) : Except LexError (Option Token × List Char) :=
  match text with
  | [] => .ok (none, [])
  | c :: rest =>
    if c.isDigit then
      if c = '0' ∧ (rest.head? = some 'x' ∨ rest.head? = some 'X') then
        let body := rest.drop 1
        let digits := body.takeWhile isHexDigit
        if digits.isEmpty then .error .hexDigits
        else .ok (some (.number (hexValue digits)), body.dropWhile isHexDigit)
      else
        match scanDecimal .initial text with
        | .ok (taken, left) => .ok (some (.number ((readDecimal? taken).getD Double.nan)), left)
        | .error e => .error (.decimal e)
    else if c = '"' ∨ c = '\'' then
      (readString c (rest.length + 1) [] rest).map fun (s, left) => (some (.string s), left)
    else
      match operatorAt? text with
      | some (o, left) => .ok (some (.op o), left)
      | none =>
        if isBlank c then .ok (none, rest)
        else
          match variableName.split? text with
          | some (d :: name, left) => .ok (some (nameToken (d :: name)), left)
          | _ => .error (.unexpected c (size - byteLength text))

def signIsUnary : List Token → Bool
  | [] => true
  | .op o :: _ => o ≠ .rightParen
  | _ => false

/-- Adds a token to those read so far (the last one first). A sign becomes unary where no operand is
before it, and a name before a parenthesis becomes a call. -/
def push (limit : Nat) (done : List Token) (token : Token) : List Token × Option LexError :=
  let counted (tokens : List Token) : List Token × Option LexError :=
    (tokens, if 0 < limit ∧ limit < tokens.length then some (.tooManyTokens limit) else none)
  match token, done with
  | .op .add, _ => counted (.op (if signIsUnary done then .plus else .add) :: done)
  | .op .subtract, _ => counted (.op (if signIsUnary done then .minus else .subtract) :: done)
  | .op .leftParen, .var (.path [segment]) :: before =>
    match Function.ofName? segment.text with
    | some f => counted (.op .leftParen :: .call f :: before)
    | none => (done, some (.invalidFunction segment.text))
  | _, _ => counted (token :: done)

/-- Reads tokens to the end of the source or to the first error. Each round takes at least one
character, so the length of the source bounds the rounds. -/
def readTokens (limit size : Nat) : Nat → List Token → List Char → List Token × Option LexError
  | 0, done, _ => (done.reverse, none)
  | _ + 1, done, [] => (done.reverse, none)
  | fuel + 1, done, c :: rest =>
    match readToken size (c :: rest) with
    | .error e => (done.reverse, some e)
    | .ok (none, left) => readTokens limit size fuel done left
    | .ok (some token, left) =>
      match push limit done token with
      | (tokens, none) => readTokens limit size fuel tokens left
      | (tokens, some e) => (tokens.reverse, some e)

def tokenize (limit : Nat) (source : List Char) : List Token × Option LexError :=
  readTokens limit (byteLength source) (source.length + 1) [] source

end JsonTemplate.Expr

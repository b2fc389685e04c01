import JsonTemplate.Json.Value

namespace JsonTemplate.Json

open JsonTemplate.Number JsonTemplate.Text

def escapeChar (c : Char) : List Char :=
  if c = '"' then ['\\', '"']
  else if c = '\\' then ['\\', '\\']
  else if c = '\x08' then ['\\', 'b']
  else if c = '\x0c' then ['\\', 'f']
  else if c = '\n' then ['\\', 'n']
  else if c = '\r' then ['\\', 'r']
  else if c = '\t' then ['\\', 't']
  else if c.toNat < 0x20 then
    ['\\', 'u', '0', '0', hexDigitChar (c.toNat / 16), hexDigitChar (c.toNat % 16)]
  else [c]

def quote (s : List Char) : List Char := '"' :: (s.flatMap escapeChar ++ ['"'])

def Num.json : Num → List Char
  | .int n => (toString n).toList
  | .double x => (formatJson x).toList

namespace Value

mutual

def compactChars : Value → List Char
  | null => ['n', 'u', 'l', 'l']
  | bool true => ['t', 'r', 'u', 'e']
  | bool false => ['f', 'a', 'l', 's', 'e']
  | number n => n.json
  | string s => quote s.toList
  | array items => '[' :: (compactItems items ++ [']'])
  | object members => '{' :: (compactMembers members ++ ['}'])

def compactItems : List Value → List Char
  | [] => []
  | [item] => item.compactChars
  | item :: rest => item.compactChars ++ ',' :: compactItems rest

def compactMembers : List (String × Value) → List Char
  | [] => []
  | [(name, value)] => quote name.toList ++ ':' :: value.compactChars
  | (name, value) :: rest =>
    quote name.toList ++ ':' :: value.compactChars ++ ',' :: compactMembers rest

end

def lineAt (level : Nat) : List Char := '\n' :: List.replicate (2 * level) ' '

mutual

def prettyChars (level : Nat) : Value → List Char
  | null => ['n', 'u', 'l', 'l']
  | bool true => ['t', 'r', 'u', 'e']
  | bool false => ['f', 'a', 'l', 's', 'e']
  | number n => n.json
  | string s => quote s.toList
  | array [] => ['[', ']']
  | array (item :: rest) => '[' :: (prettyItems (level + 1) (item :: rest) ++ lineAt level ++ [']'])
  | object [] => ['{', '}']
  | object (member :: rest) =>
    '{' :: (prettyMembers (level + 1) (member :: rest) ++ lineAt level ++ ['}'])

def prettyItems (level : Nat) : List Value → List Char
  | [] => []
  | [item] => lineAt level ++ prettyChars level item
  | item :: rest => lineAt level ++ prettyChars level item ++ ',' :: prettyItems level rest

def prettyMembers (level : Nat) : List (String × Value) → List Char
  | [] => []
  | [(name, value)] => lineAt level ++ quote name.toList ++ ':' :: ' ' :: prettyChars level value
  | (name, value) :: rest =>
    lineAt level ++ quote name.toList ++ ':' :: ' ' :: prettyChars level value
      ++ ',' :: prettyMembers level rest

end

def compact (v : Value) : String := String.ofList v.compactChars

def pretty (v : Value) : String := String.ofList (prettyChars 0 v)

end Value

end JsonTemplate.Json

import JsonTemplate.Text.Printable

namespace JsonTemplate.Text

structure ShowRules where
  single : Bool
  extending : Bool

def codeEscape (c : Char) : List Char := ['\\', 'u', '{'] ++ Nat.toDigits 16 c.toNat ++ ['}']

def showChar (rules : ShowRules) (c : Char) : List Char :=
  if c = '\x00' then ['\\', '0']
  else if c = '\t' then ['\\', 't']
  else if c = '\r' then ['\\', 'r']
  else if c = '\n' then ['\\', 'n']
  else if c = '"' then ['\\', '"']
  else if c = '\'' then if rules.single then ['\\', '\''] else ['\'']
  else if c = '\\' then ['\\', '\\']
  else if (rules.extending && isExtending c) || !isPrintable c then codeEscape c
  else [c]

def showText : List Char → List Char
  | [] => []
  | c :: rest => showChar ⟨true, true⟩ c ++ rest.flatMap (showChar ⟨true, false⟩)

def quoted (text : List Char) : List Char :=
  '"' :: (text.flatMap (showChar ⟨false, true⟩) ++ ['"'])

end JsonTemplate.Text

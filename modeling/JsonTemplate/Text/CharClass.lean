
namespace JsonTemplate.Text

abbrev ClassMask := UInt16

namespace ClassMask

def empty : ClassMask := 0
def digit : ClassMask := 0x001
def lowercase : ClassMask := 0x002
def uppercase : ClassMask := 0x004
def nonAscii : ClassMask := 0x008
def nonPrintable : ClassMask := 0x010
def hexDigit : ClassMask := 0x020
def numberSign : ClassMask := 0x040
def uriReserved : ClassMask := 0x080
def uriMark : ClassMask := 0x100
def escapeSymbol : ClassMask := 0x200
def dash : ClassMask := 0x400
def underscore : ClassMask := 0x800

def word : ClassMask := lowercase ||| uppercase ||| digit ||| underscore

def wordDash : ClassMask := word ||| dash

end ClassMask

open ClassMask

def asciiLimit : Nat := 0x80

def asciiClasses (c : Char) : ClassMask :=
  if c.toNat ≤ 0x08 then nonPrintable
  else if 0x0e ≤ c.toNat ∧ c.toNat ≤ 0x1f then nonPrintable
  else if c.isDigit then digit ||| hexDigit
  else if 'a' ≤ c ∧ c ≤ 'f' then lowercase ||| hexDigit
  else if 'g' ≤ c ∧ c ≤ 'z' then lowercase
  else if 'A' ≤ c ∧ c ≤ 'F' then uppercase ||| hexDigit
  else if 'G' ≤ c ∧ c ≤ 'Z' then uppercase
  else if c ∈ ['!', '\'', '(', ')', '~'] then uriMark
  else if c = '#' then numberSign
  else if c ∈ ['$', '&', ',', ':', ';', '=', '?'] then uriReserved
  else if c ∈ ['*', '.'] then escapeSymbol ||| uriMark
  else if c ∈ ['+', '/', '@'] then escapeSymbol ||| uriReserved
  else if c = '-' then dash ||| escapeSymbol ||| uriMark
  else if c = '_' then underscore ||| escapeSymbol ||| uriMark
  else ClassMask.empty

def classify (c : Char) : ClassMask :=
  if c.toNat < asciiLimit then asciiClasses c
  else if c.toNat < 0xa0 then ClassMask.empty
  else nonAscii

def isMember (c : Char) (mask : ClassMask) : Bool :=
  c.toNat < asciiLimit && asciiClasses c &&& mask != 0

def members (mask : ClassMask) : List Char :=
  ((List.range asciiLimit).map Char.ofNat).filter (isMember · mask)

/-- Wide white space: the ECMAScript white space and line terminators, with U+180E. -/
def isWideSpace (c : Char) : Bool :=
  c = ' ' || (0x09 ≤ c.toNat && c.toNat ≤ 0x0d)
    || (0x2000 ≤ c.toNat && c.toNat ≤ 0x200a)
    || [0xa0, 0x1680, 0x180e, 0x2028, 0x2029, 0x202f, 0x205f, 0x3000, 0xfeff].contains c.toNat

def tagSpaces : List Char := [' ', '\t', '\n', '\x0b', '\x0c', '\r']

def isTagSpace (c : Char) : Bool := tagSpaces.contains c

def isUnicodeSpace (c : Char) : Bool :=
  c = ' ' || (0x09 ≤ c.toNat && c.toNat ≤ 0x0d)
    || (0x2000 ≤ c.toNat && c.toNat ≤ 0x200a)
    || [0x85, 0xa0, 0x1680, 0x2028, 0x2029, 0x202f, 0x205f, 0x3000].contains c.toNat

end JsonTemplate.Text

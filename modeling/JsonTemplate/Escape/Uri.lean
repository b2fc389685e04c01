import JsonTemplate.Text.Digit

namespace JsonTemplate.Escape

open JsonTemplate.Text

def percentByte (b : UInt8) : List Char :=
  ['%', upperHexDigitChar (b.toNat / 16), upperHexDigitChar (b.toNat % 16)]

def percentChar (c : Char) : List Char := (String.utf8EncodeChar c).flatMap percentByte

def percentEncode (keep : Char → Bool) (text : List Char) : List Char :=
  text.flatMap fun c => if keep c then [c] else percentChar c

def isUnreserved (c : Char) : Bool := c.isAlphanum || "-_.!~*'()".toList.contains c

def isUriChar (c : Char) : Bool := isUnreserved c || ";/?:@&=+$,#".toList.contains c

def isFormChar (c : Char) : Bool := c.isAlphanum || ".-*_".toList.contains c

def encodeUri (text : List Char) : List Char := percentEncode isUriChar text

def encodeUriComponent (text : List Char) : List Char := percentEncode isUnreserved text

/-- Form encoding: a space becomes a plus sign. -/
def urlEncode (text : List Char) : List Char :=
  text.flatMap fun c =>
    if c = ' ' then ['+'] else if isFormChar c then [c] else percentChar c

end JsonTemplate.Escape

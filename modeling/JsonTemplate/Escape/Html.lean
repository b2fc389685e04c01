import JsonTemplate.Text.CharClass

namespace JsonTemplate.Escape

open JsonTemplate.Text

def htmlEntity : Char → List Char
  | '&' => "&amp;".toList
  | '<' => "&lt;".toList
  | '>' => "&gt;".toList
  | c => [c]

/-- The entity that stands for a character in a quoted attribute. The delimiters of templates have
entities too, so the result is no template code. -/
def attributeEntity : Char → List Char
  | '{' => "&#123;".toList
  | '}' => "&#125;".toList
  | '|' => "&#124;".toList
  | '>' => "&gt;".toList
  | '<' => "&lt;".toList
  | '"' => "&quot;".toList
  | '&' => "&amp;".toList
  | c => [c]

def html (text : List Char) : List Char := text.flatMap htmlEntity

def htmlAttribute (text : List Char) : List Char := text.flatMap attributeEntity

def encodeSpace (text : List Char) : List Char :=
  text.flatMap fun c => if isUnicodeSpace c then "&nbsp;".toList else [c]

/-- Equality of letters without regard to case; the long s counts as an s. -/
def sameLetter (lower c : Char) : Bool := c.toLower = lower || (lower = 's' && c = '\u017f')

def startsWithWord : List Char → List Char → Bool
  | [], _ => true
  | _ :: _, [] => false
  | w :: word, c :: rest => sameLetter w c && startsWithWord word rest

/-- Puts a backslash into every closing script tag, in any case. -/
def scriptTags : List Char → List Char
  | '<' :: '/' :: rest =>
    if startsWithWord "script".toList rest then '<' :: '\\' :: '/' :: scriptTags rest
    else '<' :: scriptTags ('/' :: rest)
  | c :: rest => c :: scriptTags rest
  | [] => []

/-- Removes tags: from a `<` to the first `>` after it. -/
def stripTags : List Char → List Char
  | [] => []
  | c :: rest =>
    if c = '<' ∧ rest.contains '>' then stripTags ((rest.dropWhile (· ≠ '>')).drop 1)
    else c :: stripTags rest
termination_by text => text.length
decreasing_by
  · have : (rest.dropWhile (· ≠ '>')).length ≤ rest.length :=
      (List.dropWhile_sublist _).length_le
    simp only [List.length_drop, List.length_cons]
    omega
  · simp

end JsonTemplate.Escape


namespace JsonTemplate.Text

/-- The pieces between the separators. There is always one more piece than there are separators. -/
def pieces (separator : Char) : List Char → List (List Char)
  | [] => [[]]
  | c :: rest =>
    if c = separator then [] :: pieces separator rest
    else
      match pieces separator rest with
      | [] => [[c]]
      | first :: others => (c :: first) :: others

def trimStart (blank : Char → Bool) (text : List Char) : List Char := text.dropWhile blank

def trimEnd (blank : Char → Bool) (text : List Char) : List Char :=
  (text.reverse.dropWhile blank).reverse

def trim (blank : Char → Bool) (text : List Char) : List Char :=
  trimEnd blank (trimStart blank text)

def joinWith (separator : List Char) : List (List Char) → List Char
  | [] => []
  | [first] => first
  | first :: rest => first ++ separator ++ joinWith separator rest

end JsonTemplate.Text

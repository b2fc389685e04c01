import JsonTemplate.Text.CharClass

namespace JsonTemplate.Escape

open JsonTemplate.Text

def isSlugChar (c : Char) : Bool := c.isAlphanum || isUnicodeSpace c || c = '-'

def dashRuns : Bool → List Char → List Char
  | _, [] => []
  | inRun, c :: rest =>
    if isUnicodeSpace c then if inRun then dashRuns true rest else '-' :: dashRuns true rest
    else c :: dashRuns false rest

def slugify (text : List Char) : List Char :=
  (dashRuns false (text.filter isSlugChar)).map Char.toLower

def openQuotes (quote curled : Char) (opens : Char → Bool) : Option Char → List Char → List Char
  | _, [] => []
  | before, c :: rest =>
    let atOpening := match before with
      | none => true
      | some b => opens b
    (if c = quote && atOpening then curled else c) :: openQuotes quote curled opens (some c) rest

def replaceChar (old new : Char) (text : List Char) : List Char :=
  text.map fun c => if c = old then new else c

def joinDashes : List Char → List Char
  | '-' :: '-' :: rest => '\u2014' :: joinDashes rest
  | c :: rest => c :: joinDashes rest
  | [] => []

def opensSingle (c : Char) : Bool := isUnicodeSpace c || ['-', '\u2014', '(', '[', '"'].contains c

def opensDouble (c : Char) : Bool :=
  isUnicodeSpace c || ['-', '\u2014', '/', '[', '(', '\u2018'].contains c

/-- Typographic quotes and dashes. Single quotes are curled first, since an opening one lets a
double quote open after it. -/
def smartypants (text : List Char) : List Char :=
  let singles := replaceChar '\'' '\u2019' (openQuotes '\'' '\u2018' opensSingle none text)
  let doubles := replaceChar '"' '\u201d' (openQuotes '"' '\u201c' opensDouble none singles)
  joinDashes doubles

/-- Cuts a text that is longer than `limit` characters: after the last white space within the limit,
or at the limit where there is none. -/
def truncate (limit : Nat) (ellipsis text : List Char) : List Char :=
  if text.length ≤ limit then text
  else
    let front := text.take limit
    let kept := (front.reverse.dropWhile fun c => !isUnicodeSpace c).reverse
    (if kept.isEmpty then front else kept) ++ ellipsis

end JsonTemplate.Escape

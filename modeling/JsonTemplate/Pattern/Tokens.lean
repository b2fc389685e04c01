import JsonTemplate.Pattern.Recognizer

namespace JsonTemplate.Pattern

open JsonTemplate.Text Recognizer

def wordPattern : Recognizer :=
  .sequence [classes (.lowercase ||| .uppercase), zeroOrMore wordDash]

def wordOrDigits : Recognizer := .choice [wordPattern, digits]

def dotWord : Recognizer :=
  .sequence [wordOrDigits, zeroOrMore (.sequence [text ".", wordOrDigits])]

def tagSpace : Recognizer := .char (.oneOf tagSpaces)

def argumentsPattern : Recognizer := oneOrMore (noneOf "|\x7d")

def predicateArguments : Recognizer := oneOrMore (noneOf "\x7d")

def booleanOperator : Recognizer := .choice [text "&&", text "||"]

def equalSign : Recognizer := text "="

def keyword : Recognizer := .sequence [text ".", wordPattern, Recognizer.optional (text "?")]

def localVariable : Recognizer := .sequence [text "@", wordPattern]

def path : Recognizer := oneOrMore (.choice [oneOf "./", wordDash])

def predicateName : Recognizer := .sequence [wordPattern, text "?"]

def variableName : Recognizer :=
  .choice [.sequence [zeroOrMore (text "@"), dotWord], text "@"]

def variablesDelimiter : Recognizer :=
  .sequence [zeroOrMore tagSpace, text ",", zeroOrMore tagSpace]

def whitespace : Recognizer := oneOrMore tagSpace

def wordSection : Recognizer := text "section"

def wordWith : Recognizer := text "with"

def pipe : Recognizer := text "|"

def space : Recognizer := text " "

end JsonTemplate.Pattern

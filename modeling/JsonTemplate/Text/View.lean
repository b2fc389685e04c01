import JsonTemplate.Text.Offset
import JsonTemplate.Text.Quoted

namespace JsonTemplate.Text

structure View where
  source : List Char
  start : Nat
  stop : Nat
  start_le_stop : start ≤ stop
  stop_le : stop ≤ byteLength source

namespace View

def make (source : List Char) (start stop : Nat) : View :=
  ⟨source, min start (min stop (byteLength source)), min stop (byteLength source),
    Nat.min_le_right _ _, Nat.min_le_right _ _⟩

def ofSource (source : List Char) : View := make source 0 (byteLength source)

def text (v : View) : List Char := slice v.source v.start v.stop

/-- A view whose range counts from the start of another one. It may reach past the end of that one,
up to the end of the source. -/
def subview (v : View) (start stop : Nat) : View := make v.source (v.start + start) (v.start + stop)

def lastChar? (v : View) : Option Char := v.text.getLast?

def same (v w : View) : Bool := v.text == w.text

def quotedText (v : View) : List Char := quoted v.text

end View

end JsonTemplate.Text

import JsonTemplate.Pattern.Recognizer
import JsonTemplate.Text.Offset

namespace JsonTemplate.Pattern

open JsonTemplate.Text

namespace Recognizer

mutual

/-- What is left of a pattern where single characters cannot be read; `texts` tells whether literals
and numbers still can. -/
def withoutChars (texts : Bool) : Recognizer → Recognizer
  | char _ => choice []
  | literal chars => if texts then literal chars else choice []
  | decimal => if texts then decimal else choice []
  | sequence parts => sequence (withoutCharsAll texts parts)
  | choice alternatives => choice (withoutCharsAll texts alternatives)
  | repeated part least most => repeated (part.withoutChars texts) least most
  | lookAhead part => lookAhead (part.withoutChars texts)

def withoutCharsAll (texts : Bool) : List Recognizer → List Recognizer
  | [] => []
  | part :: parts => part.withoutChars texts :: withoutCharsAll texts parts

end

/-- The byte offset after a match that starts at `start` and ends by `stop`. A window that ends
inside a character shows no single characters, and a window that ends before it starts shows
nothing. -/
def matchAt (r : Recognizer) (text : List Char) (start stop : Nat) : Option Nat :=
  let visible :=
    if stop < start then r.withoutChars false
    else if isBoundary text stop then r
    else r.withoutChars true
  let window := if stop < start then [] else slice text start stop
  (visible.matchLength window).map fun n => start + byteLength (window.take n)

end Recognizer

structure Cursor where
  source : List Char
  start : Nat
  stop : Nat
  pointer : Nat
  matchStart : Nat
  matchEnd : Nat
  deriving Repr, DecidableEq

namespace Cursor

def ofSource (source : List Char) : Cursor := ⟨source, 0, byteLength source, 0, 0, 0⟩

def region (c : Cursor) (start stop : Nat) : Cursor :=
  { c with start, stop, pointer := start, matchStart := start, matchEnd := start }

def remainder (c : Cursor) : List Char := slice c.source c.pointer c.stop

def consume (c : Cursor) : List Char × Cursor :=
  (slice c.source c.matchStart c.matchEnd, { c with pointer := c.matchEnd })

def skip (c : Cursor) : Cursor := { c with pointer := c.matchEnd }

def seek (c : Cursor) (bytes : Nat) : Cursor := { c with pointer := min (c.pointer + bytes) c.stop }

def finished (c : Cursor) : Bool := c.pointer = c.stop

def peek (c : Cursor) (ahead : Nat) (char : Char) : Bool :=
  let place := c.pointer + ahead
  place < c.stop && (slice c.source place (place + 1)).head? = some char

/-- Matches a pattern at the pointer. Only a match that takes something counts. -/
def tryMatch (c : Cursor) (r : Recognizer) : Option Cursor :=
  match r.matchAt c.source c.pointer c.stop with
  | some place =>
    if c.pointer < place then some { c with matchStart := c.pointer, matchEnd := place }
    else none
  | none => none

def tryChar (c : Cursor) (char : Char) : Option Cursor :=
  if c.peek 0 char then some { c with matchStart := c.pointer, matchEnd := c.pointer + 1 } else none

end Cursor

end JsonTemplate.Pattern

import JsonTemplate.Template.Assembly
import JsonTemplate.Template.Event

namespace JsonTemplate

open JsonTemplate.Text

structure CompileOptions where
  lenient : Bool
  preprocess : Bool
  expr : ExprOptions
  deriving Repr, DecidableEq

def CompileOptions.strict : CompileOptions := ⟨false, false, .unlimited⟩

structure Compiled where
  template : Template
  problems : List Diagnostic
  count : Nat

namespace Compiled

def inOrder (d e : Diagnostic) : Bool := !e.place.before d.place

def feedStrict (a : Assembly) : List Event → Except Diagnostic Assembly
  | [] => .ok a
  | .problem d :: _ => .error d
  | .emit i :: rest =>
    match a.accept i with
    | (next, none) => feedStrict next rest
    | (_, some d) => .error d

def compile (vocabulary : Vocabulary) (options : CompileOptions) (source : List Char) :
    Except Diagnostic Compiled :=
  let rules : Tag.Rules := ⟨vocabulary, options.expr, options.preprocess⟩
  let events := Event.ofSource rules source
  if options.lenient then
    let a := ((Assembly.start true).feed (Event.instructions events)).1
    .ok ⟨a.finish, (a.problems ++ Event.problems events).mergeSort inOrder, a.count⟩
  else
    (feedStrict (Assembly.start false) events).map fun a => ⟨a.finish, [], a.count⟩

end Compiled

end JsonTemplate

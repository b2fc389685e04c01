import JsonTemplate.Diagnostic

namespace JsonTemplate

open JsonTemplate.Text

/-- Limits on the number of instructions; zero is no limit. -/
structure CodeLimits where
  soft : Nat
  hard : Nat
  /-- The number of instructions between two looks at the count. -/
  resolution : Nat
  deriving Repr, DecidableEq

namespace CodeLimits

def defaultResolution : Nat := 64

def make (soft hard resolution : Nat) : CodeLimits :=
  ⟨soft, hard, max 1 resolution⟩

end CodeLimits

inductive LimitKind where
  | soft
  | hard
  deriving Repr, DecidableEq

def LimitKind.text : LimitKind → String
  | soft => "soft"
  | hard => "hard"

structure Limiter where
  limits : Option CodeLimits
  count : Nat
  softPassed : Bool
  hardPassed : Bool
  /-- The limits passed so far, each with the count at which that was seen. -/
  notices : List (LimitKind × Nat)
  deriving Repr, DecidableEq

namespace Limiter

def start (limits : Option CodeLimits) : Limiter := ⟨limits, 0, false, false, []⟩

def exceeded (hard count : Nat) : Diagnostic :=
  (((Diagnostic.run .codeLimitReached .nowhere).withName LimitKind.hard.text).withData
    s!"after {count} instructions").withLimit hard

def passes (limit : Nat) (passed : Bool) (count : Nat) : Bool :=
  0 < limit && !passed && limit < count

def passSoft (limits : CodeLimits) (l : Limiter) : Limiter :=
  if passes limits.soft l.softPassed l.count then
    { l with softPassed := true, notices := l.notices ++ [(.soft, l.count)] }
  else l

def passHard (limits : CodeLimits) (l : Limiter) : Limiter × Option Diagnostic :=
  if passes limits.hard l.hardPassed l.count then
    ({ l with hardPassed := true, notices := l.notices ++ [(.hard, l.count)] },
      some (exceeded limits.hard l.count))
  else (l, none)

def check (l : Limiter) : Limiter × Option Diagnostic :=
  let counted := { l with count := l.count + 1 }
  match counted.limits with
  | none => (counted, none)
  | some limits =>
    if counted.count % limits.resolution ≠ 0 then (counted, none)
    else (counted.passSoft limits).passHard limits

def checkMany : Nat → Limiter → Limiter × Option Diagnostic
  | 0, l => (l, none)
  | n + 1, l =>
    match l.check with
    | (next, none) => checkMany n next
    | (next, some d) => (next, some d)

end Limiter

end JsonTemplate

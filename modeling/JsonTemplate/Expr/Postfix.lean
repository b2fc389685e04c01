import JsonTemplate.Expr.Token

namespace JsonTemplate.Expr

inductive Mismatch where
  | left
  | right
  deriving Repr, DecidableEq

def Mismatch.message : Mismatch → String
  | left => "Mismatched operator found: " ++ Operator.leftParen.name
  | right => "Mismatched operator found: " ++ Operator.rightParen.name

/-- The state between two tokens: the statement so far and the waiting operators and calls, both
with the last one first, and the finished statements. -/
structure Yard where
  output : List Token
  waiting : List Token
  statements : List (List Token)

namespace Yard

def initial : Yard := ⟨[], [], []⟩

def drain : List Token → List Token → Except Mismatch (List Token)
  | output, [] => .ok output
  | output, top :: rest =>
    if top.isOp .leftParen then .error .left else drain (top :: output) rest

def endStatement (y : Yard) : Except Mismatch Yard :=
  (drain y.output y.waiting).map fun output =>
    if output.isEmpty then ⟨[], [], y.statements⟩
    else ⟨[], [], y.statements ++ [output.reverse]⟩

def isReleased : Token → Bool
  | .op o => o ≠ .leftParen
  | _ => false

def release (goes : Token → Bool) : List Token → List Token → List Token × List Token
  | output, [] => (output, [])
  | output, top :: rest =>
    if goes top then release goes (top :: output) rest else (output, top :: rest)

def yieldsTo (o : Operator) : Token → Bool
  | .op top =>
    top ≠ .leftParen
      && (o.precedence < top.precedence || (top.precedence == o.precedence && o.groupsLeft))
  | _ => false

/-- Closes a parenthesis, and the call before it. -/
def close (y : Yard) : Except Mismatch Yard :=
  match release (fun t => !t.isOp .leftParen) y.output y.waiting with
  | (_, []) => .error .right
  | (output, _ :: rest) =>
    match rest with
    | .call f :: others => .ok { y with output := .call f :: output, waiting := others }
    | others => .ok { y with output, waiting := others }

def step (y : Yard) (token : Token) : Except Mismatch Yard :=
  match token with
  | .call f => .ok { y with output := .args :: y.output, waiting := .call f :: y.waiting }
  | .op .semicolon => y.endStatement
  | .op .leftParen => .ok { y with waiting := token :: y.waiting }
  | .op .comma =>
    if y.waiting.any (·.isOp .leftParen) then
      let (output, waiting) := release isReleased y.output y.waiting
      .ok { y with output, waiting }
    else y.endStatement
  | .op .rightParen => y.close
  | .op o =>
    let (output, waiting) := release (yieldsTo o) y.output y.waiting
    .ok { y with output, waiting := .op o :: waiting }
  | operand => .ok { y with output := operand :: y.output }

def run (y : Yard) : List Token → List (List Token) × Option Mismatch
  | [] =>
    match y.endStatement with
    | .ok done => (done.statements, none)
    | .error e => (y.statements, some e)
  | token :: rest =>
    match y.step token with
    | .ok next => next.run rest
    | .error e => (y.statements, some e)

end Yard

/-- The postfix statements of tokens. On a mismatch the statements before it are kept. -/
def postfixStatements (tokens : List Token) : List (List Token) × Option Mismatch :=
  Yard.initial.run tokens

end JsonTemplate.Expr

import JsonTemplate.Expr.Lexer
import JsonTemplate.Expr.Postfix
import JsonTemplate.Expr.Reduce

namespace JsonTemplate

open JsonTemplate.Expr

/-- Limits on expressions. Zero is no limit. -/
structure ExprOptions where
  maxTokens : Nat
  maxStringLength : Nat
  deriving Repr, DecidableEq

def ExprOptions.unlimited : ExprOptions := ⟨0, 0⟩

structure Program where
  source : String
  tokens : List Token
  statements : List (List Token)
  problems : List String
  maxStringLength : Nat

namespace Program

def ofTokens (options : ExprOptions) (source : String) : Program :=
  let (tokens, error) := tokenize options.maxTokens source.toList
  ⟨source, tokens, [], (error.map LexError.message).toList, options.maxStringLength⟩

def build (p : Program) : Program :=
  if p.problems.isEmpty then
    let (statements, mismatch) := postfixStatements p.tokens
    { p with statements, problems := (mismatch.map Mismatch.message).toList }
  else p

def parse (options : ExprOptions) (source : String) : Program := (ofTokens options source).build

def listing (p : Program) : String := Expr.listing p.statements

def reduce {σ : Type} (scope : Scope σ) (p : Program) (s : σ) : Option ExprValue × σ :=
  reduceAll scope p.maxStringLength none s p.statements

end Program

end JsonTemplate

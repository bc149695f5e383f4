import Unroll.Grammar.Program
import Unroll.Token.Layout
/-! # From text to tree

The two stages in a row, with one kind of error for both.
-/
namespace Unroll

/-- Why a text cannot be read. -/
inductive SourceError
  | lex (error : LexError)
  | parse (error : ParseError)
deriving DecidableEq, Repr

namespace SourceError

def message : SourceError → String
  | lex e => "lex error: " ++ e.message
  | parse e => "parse error: " ++ e.message

end SourceError

namespace Source

def tokens (source : String) : Except SourceError (List Token) :=
  (Unroll.tokens source).mapError .lex

def program (source : String) (edition : Option String) : Except SourceError Program := do
  (program? (← tokens source) edition).mapError .parse

/-- Reads what it can; only a text that is no sequence of tokens is refused as a whole. -/
def recovered (source : String) : Except SourceError (Program × List ParseError) :=
  return programRecovered (← tokens source) none

def expr (source : String) : Except SourceError Expr := do
  (expr? (← tokens source)).mapError .parse

/-- Reads the type that the text begins with. -/
def typeRef (source : String) : Except SourceError TypeRef := do
  (typeRef? (← tokens source)).mapError .parse

end Source

end Unroll

import Unroll.Token
import Unroll.Syntax
/-! # Reading a token stream

A parser is a step on a cursor: it gives a result or an error, and in both cases the cursor that is
left.  The cursor after an error matters, because recovery goes on from there.

Every phrase takes a bound on the number of tokens left.  A phrase inside another one begins at
least one token later, so its bound is one less, and a bound of zero means that no token is left:
there a phrase answers what it answers to an empty input.  The bound therefore never decides
anything; it only shows that reading ends.
-/
namespace Unroll

inductive ParseFault
  | endOfInput
  | expected (kind : TokenKind)
  | expectedName
  | expectedStatement
  | expectedExpression
  | expectedLineEnd
  | expectedEnd
  | noTemplateParams
  | templateRecord
  | openRecordType
  | recordTypeSeparator
  | openRecordLiteral
  | recordLiteralSeparator
  | openBlock
  | expansionVariable
  | chainedComparison
  | calleeNotNamed
  | integerRange
  | edition (name : String)
deriving DecidableEq, Repr, Inhabited

structure ParseError where
  fault : ParseFault
  span : Span
deriving DecidableEq, Repr, Inhabited

def supportedEditions : List String := ["2026"]

def ParseFault.message : ParseFault → String
  | endOfInput => "unexpected end of input"
  | expected kind => "expected " ++ kind.label
  | expectedName => "expected identifier"
  | expectedStatement => "expected a statement"
  | expectedExpression => "expected an expression"
  | expectedLineEnd => "expected end of line"
  | expectedEnd => "expected end of input"
  | noTemplateParams => "template parameter list cannot be empty"
  | templateRecord => "record types cannot take template parameters"
  | openRecordType => "unterminated record type; expected '\x7d'"
  | recordTypeSeparator => "expected ',' or '\x7d' in record type"
  | openRecordLiteral => "unterminated record literal; expected '\x7d'"
  | recordLiteralSeparator => "expected ',' or '\x7d' in record literal"
  | openBlock => "unterminated block; expected dedent"
  | expansionVariable => "expected 'val' to declare the expansion variable"
  | chainedComparison =>
    "chained comparisons are not supported; use parentheses or boolean operators"
  | calleeNotNamed => "only named cells can be called"
  | integerRange => "integer literal does not fit in 64 bits"
  | edition name =>
    "unsupported edition '" ++ name ++ "' (supported: " ++ ", ".intercalate supportedEditions ++ ")"

def ParseError.message (e : ParseError) : String := e.fault.message

structure Cursor where
  rest : List Token
  /-- Where the last token of the whole stream stands. -/
  last : Span

namespace Cursor

def ofTokens (tokens : List Token) : Cursor :=
  ⟨tokens, match tokens.getLast? with | some t => t.span | none => ⟨0, 0⟩⟩

def kind? (c : Cursor) : Option TokenKind := c.rest.head?.map (·.kind)

/-- The kind of the token after the next one. -/
def second? (c : Cursor) : Option TokenKind := c.rest.tail.head?.map (·.kind)

def drop (c : Cursor) : Cursor := { c with rest := c.rest.tail }

end Cursor

abbrev Parse := EStateM ParseError Cursor

namespace Parse

def fail {α : Type} (fault : ParseFault) (span : Span) : Parse α := throw ⟨fault, span⟩

def endOfInput {α : Type} : Parse α := do fail .endOfInput (← get).last

def peek : Parse (Option TokenKind) := return (← get).kind?

def peekSecond : Parse (Option TokenKind) := return (← get).second?

/-- Where the next token stands; `other` where there is none. -/
def place (other : Span) : Parse Span :=
  return match (← get).rest.head? with
    | some t => t.span
    | none => other

def sees (kind : TokenKind) : Parse Bool := return (← peek) == some kind

def skip : Parse Unit := modify Cursor.drop

def next : Parse Token := do
  match (← get).rest with
  | [] => endOfInput
  | t :: _ => skip; return t

/-- Takes the next token if it is of the kind, and tells whether it was. -/
def eat (kind : TokenKind) : Parse Bool := do
  if ← sees kind then skip; return true
  else return false

/-- Takes the next token whatever it is, and fails if it is of another kind. -/
def expect (kind : TokenKind) : Parse Span := do
  let t ← next
  if t.kind = kind then return t.span
  else fail (.expected kind) t.span

def ident : Parse Ident := do
  let t ← next
  match t.kind with
  | .name n => return ⟨n, t.span⟩
  | _ => fail .expectedName t.span

def skipNewlines : Parse Unit :=
  modify (fun c => { c with rest := c.rest.dropWhile (·.kind = .newline) })

def lineEnd : Parse Unit := do
  match ← peek with
  | some .newline => skip
  | some .dedent | some .eof => return ()
  | _ => fail .expectedLineEnd (← place ⟨0, 0⟩)

/-- Elements separated by commas, at least one; `more` tells, after a comma, whether another one
follows. -/
def commaSeparated {α : Type} (element : Parse α) (more : Parse Bool) : Nat → Parse (List α)
  | 0 => endOfInput
  | n + 1 => do
    let a ← element
    if ← eat (.symbol .comma) then
      if ← more then return a :: (← commaSeparated element more n)
    return [a]

/-- Elements up to the closing token, which is not taken; a comma may follow the last one. -/
def closedBy {α : Type} (close : TokenKind) (element : Parse α) (n : Nat) : Parse (List α) := do
  if ← sees close then return []
  else commaSeparated element (return !(← sees close)) n

end Parse

end Unroll

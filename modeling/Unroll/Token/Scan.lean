import Unroll.Token
import Unroll.Token.Numeral
import Unroll.Text.Blank
import Unroll.Text.Escape
/-! # One line of tokens

A lexeme is a first character and a number of further ones, so what is left after it is shorter by
construction and the scan of a line ends with the line.  Which kind of lexeme stands at a place is
decided by its first character, and each kind takes as much as it can: no two kinds compete.
-/
namespace Unroll

inductive LexFault
  | tab
  | indentation
  | integer
  | character
  | text
  | unexpected
  | unopened
  | unclosed
deriving DecidableEq, Repr, Inhabited

structure LexError where
  fault : LexFault
  span : Span
deriving DecidableEq, Repr, Inhabited

def LexFault.message : LexFault → String
  | tab => "tabs are not allowed; use spaces"
  | indentation => "inconsistent indentation"
  | integer => "invalid integer literal"
  | character => "invalid char literal"
  | text => "invalid string literal"
  | unexpected => "unexpected token"
  | unopened => "unbalanced closing bracket"
  | unclosed => "unclosed bracket at end of input"

def LexError.message (e : LexError) : String := e.fault.message

namespace Lexeme

/-- Words start with a letter or an underscore; only ASCII letters count. -/
def startsWord (c : Char) : Bool := c.isAlpha || c == '_'

def continuesWord (c : Char) : Bool := startsWord c || c.isDigit

/-- Nothing but these separates two lexemes of a line. -/
def isSeparator (c : Char) : Bool := c == ' ' || c == '\x0c' || c == '\r'

def word (c : Char) (rest : List Char) : TokenKind × Nat :=
  let tail := rest.takeWhile continuesWord
  let w := String.ofList (c :: tail)
  (match Keyword.ofWord? w with
    | some k => .keyword k
    | none => .name w, tail.length)

/-- How far a string reaches after its opening quote, and whether it is closed there.  An unclosed
one ends with the line, before a backslash that stands last. -/
def textReach : List Char → Nat × Bool
  | [] => (0, false)
  | ['\\'] => (0, false)
  | '\\' :: _ :: r => let (n, closed) := textReach r; (n + 2, closed)
  | '"' :: _ => (1, true)
  | _ :: r => let (n, closed) := textReach r; (n + 1, closed)

def text (rest : List Char) : Except LexFault TokenKind × Nat :=
  match textReach rest with
  | (n, false) => (.error .unexpected, n)
  | (n, true) =>
    match Text.decode (rest.take (n - 1)) with
    | some cs => (.ok (.text (String.ofList cs)), n)
    | none => (.error .text, n)

/-- A character literal: one plain character, a one-character escape, or `\u{…}` with hexadecimal
digits.  One that breaks off among those digits is reported up to the last of them. -/
def character (rest : List Char) : Except LexFault TokenKind × Nat :=
  match rest with
  | '\\' :: 'u' :: '{' :: r =>
    let run := r.takeWhile (Text.isDigitIn 16)
    if run.isEmpty then (.error .unexpected, 0)
    else match r.drop run.length with
      | '}' :: '\'' :: _ => (decoded (rest.take (run.length + 4)), run.length + 5)
      | _ => (.error .unexpected, run.length + 3)
  | '\\' :: c :: '\'' :: _ =>
    if c = 'u' then (.error .unexpected, 0) else (decoded ['\\', c], 3)
  | c :: '\'' :: _ =>
    if c = '\'' ∨ c = '\\' then (.error .unexpected, 0) else (decoded [c], 2)
  | _ => (.error .unexpected, 0)
where
  decoded (inner : List Char) : Except LexFault TokenKind :=
    match Text.decode inner with
    | some [c] => .ok (.char c)
    | _ => .error .character

/-- The token at the front of `c :: rest`, and how many characters after `c` it takes. -/
def scan (c : Char) (rest : List Char) : Except LexFault TokenKind × Nat :=
  if startsWord c then
    let (kind, n) := word c rest
    (.ok kind, n)
  else if c.isDigit then
    match Numeral.scan c rest with
    | (some v, n) => (.ok (.int v), n)
    | (none, n) => (.error .integer, n)
  else if c = '"' then text rest
  else if c = '\'' then character rest
  else match Symbol.scan? c rest with
    | some (s, n) => (.ok (.symbol s), n)
    | none => (.error .unexpected, 0)

end Lexeme

/-- The tokens of one line from the byte offset `start` on, and the number of brackets open after
it. -/
def scanLine (depth start : Nat) : List Char → Except LexError (List Token × Nat)
  | [] => .ok ([], depth)
  | c :: rest =>
    if Lexeme.isSeparator c then scanLine depth (start + c.utf8Size) rest
    else
      let (kind, n) := Lexeme.scan c rest
      let span : Span := ⟨start, Text.width (c :: rest.take n)⟩
      match kind with
      | .error fault => .error ⟨fault, span⟩
      | .ok kind =>
        match kind.depthAfter depth with
        | none => .error ⟨.unopened, span⟩
        | some depth =>
          match scanLine depth span.stop (rest.drop n) with
          | .error e => .error e
          | .ok (tokens, depth) => .ok (⟨kind, span⟩ :: tokens, depth)
termination_by cs => cs.length
decreasing_by all_goals simp; try omega

end Unroll

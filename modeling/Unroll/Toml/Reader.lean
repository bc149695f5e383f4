/-! # Reading from the front of a text

A reader takes some characters off the front or refuses the text.  It never goes back on what it
took, so whoever calls it looks at the next character first.
-/
namespace Unroll.Toml

abbrev Reader := StateT (List Char) Option

namespace Reader

variable {α : Type}

def char (c : Char) : Reader Unit := fun
  | d :: r => if d = c then some ((), r) else none
  | [] => none

def next : Reader (Option Char) := fun cs => some (cs.head?, cs)

def isSpace (c : Char) : Bool := c == ' ' || c == '\t'

def spaces : Reader Unit := fun cs => some ((), cs.dropWhile isSpace)

/-- A character that may stand as it is in a comment or a string: no control character but a tab. -/
def isPlain (c : Char) : Bool := c == '\t' || (c.toNat ≥ 0x20 && c.toNat != 0x7F)

/-- The end of a line: spaces, a comment perhaps, and a line break or the end of the text. -/
def lineEnd : Reader Unit := fun cs =>
  let cs := cs.dropWhile isSpace
  let cs := if cs.head? = some '#' then cs.dropWhile isPlain else cs
  match cs with
  | [] => some ((), [])
  | '\n' :: r => some ((), r)
  | '\r' :: '\n' :: r => some ((), r)
  | _ => none

/-- Spaces, line breaks and comments.  A comment ends with its line. -/
def gap (inComment : Bool) : List Char → Option (Unit × List Char)
  | '\n' :: r => gap false r
  | '\r' :: '\n' :: r => gap false r
  | c :: r =>
    if inComment then if isPlain c then gap true r else none
    else if isSpace c then gap false r
    else if c = '#' then gap true r
    else some ((), c :: r)
  | [] => some ((), [])

/-- The items of an array up to its closing bracket; a comma may follow the last one.  At most
`most` of them. -/
def items (item : Reader α) : (most : Nat) → Reader (List α)
  | 0 => failure
  | most + 1 => do
    gap false
    if (← next) = some ']' then
      char ']'
      return []
    let a ← item
    gap false
    if (← next) = some ',' then
      char ','
      return a :: (← items item most)
    char ']'
    return [a]

/-- One item, and those that commas set off, up to the closing brace. -/
def members (item : Reader α) : (most : Nat) → Reader (List α)
  | 0 => failure
  | most + 1 => do
    let a ← item
    spaces
    if (← next) = some ',' then
      char ','
      return a :: (← members item most)
    char '}'
    return [a]

end Reader

end Unroll.Toml

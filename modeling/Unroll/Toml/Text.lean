import Unroll.Text.Digit
import Unroll.Text.Escape
import Unroll.Toml.Reader
/-! # Strings of a settings file

Four forms: with quotes, where a backslash escapes, or with apostrophes, where nothing does; on one
line, or over several with three quotes or apostrophes.  Each function here reads what follows the
opening delimiter, the closing one included.

Up to two quotes may stand before the three that close a string over several lines.
-/
namespace Unroll.Toml.Text

open Reader (isPlain isSpace)

def escaped? : Char → Option Char
  | 'b' => some '\x08'
  | 't' => some '\t'
  | 'n' => some '\n'
  | 'f' => some '\x0c'
  | 'r' => some '\r'
  | '"' => some '"'
  | '\\' => some '\\'
  | _ => none

/-- The character with a number of so many hexadecimal digits. -/
def codePoint? (digits : List Char) : Option Char :=
  if digits.all (Unroll.Text.isDigitIn 16) then
    Unroll.Text.scalar? (Unroll.Text.ofDigits 16 digits)
  else none

/-- Puts a character, where there is one, in front of what is read after it. -/
def push (c : Option Char) (r : Option (List Char × List Char)) : Option (List Char × List Char) :=
  match c, r with
  | some c, some (s, rest) => some (c :: s, rest)
  | _, _ => none

def basic : List Char → Option (List Char × List Char)
  | [] => none
  | '"' :: r => some ([], r)
  | '\\' :: 'u' :: a :: b :: c :: d :: r => push (codePoint? [a, b, c, d]) (basic r)
  | '\\' :: 'U' :: a :: b :: c :: d :: e :: f :: g :: h :: r =>
    push (codePoint? [a, b, c, d, e, f, g, h]) (basic r)
  | '\\' :: c :: r => push (escaped? c) (basic r)
  | c :: r => push (if isPlain c && c != '\\' then some c else none) (basic r)

def literal : List Char → Option (List Char × List Char)
  | [] => none
  | '\'' :: r => some ([], r)
  | c :: r => push (if isPlain c then some c else none) (literal r)

/-- Whether nothing but spaces comes before the line break. -/
def endsLine (cs : List Char) : Bool :=
  match cs.dropWhile isSpace with
  | '\n' :: _ => true
  | '\r' :: '\n' :: _ => true
  | _ => false

/-- `joining` holds after a backslash at the end of a line, which takes away all white space up to
the next character. -/
def basicLines (joining : Bool) : List Char → Option (List Char × List Char)
  | '"' :: '"' :: '"' :: '"' :: '"' :: r => some (['"', '"'], r)
  | '"' :: '"' :: '"' :: '"' :: r => some (['"'], r)
  | '"' :: '"' :: '"' :: r => some ([], r)
  | '\r' :: '\n' :: r =>
    if joining then basicLines true r else push (some '\n') (basicLines false r)
  | '\n' :: r => if joining then basicLines true r else push (some '\n') (basicLines false r)
  | '\\' :: 'u' :: a :: b :: c :: d :: r => push (codePoint? [a, b, c, d]) (basicLines false r)
  | '\\' :: 'U' :: a :: b :: c :: d :: e :: f :: g :: h :: r =>
    push (codePoint? [a, b, c, d, e, f, g, h]) (basicLines false r)
  | '\\' :: c :: r =>
    if endsLine (c :: r) then basicLines true (c :: r) else push (escaped? c) (basicLines false r)
  | c :: r =>
    if joining && isSpace c then basicLines true r
    else push (if isPlain c && c != '\\' then some c else none) (basicLines false r)
  | [] => none

def literalLines : List Char → Option (List Char × List Char)
  | '\'' :: '\'' :: '\'' :: '\'' :: '\'' :: r => some (['\'', '\''], r)
  | '\'' :: '\'' :: '\'' :: '\'' :: r => some (['\''], r)
  | '\'' :: '\'' :: '\'' :: r => some ([], r)
  | '\r' :: '\n' :: r => push (some '\n') (literalLines r)
  | '\n' :: r => push (some '\n') (literalLines r)
  | c :: r => push (if isPlain c then some c else none) (literalLines r)
  | [] => none

/-- A line break right behind the opening delimiter is not part of the string. -/
def dropBreak : List Char → List Char
  | '\n' :: r => r
  | '\r' :: '\n' :: r => r
  | r => r

end Unroll.Toml.Text

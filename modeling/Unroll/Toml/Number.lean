import Unroll.Arith
import Unroll.Token.Numeral
/-! # Numbers, dates and times of a settings file

Each is one word.  Integers are signed 64-bit integers.  Of floats, dates and times only the form is
checked, and that the value exists: a float must not be too large, a date must be in the calendar.
-/
namespace Unroll.Toml

/-- Digits of the base, with underscores only between two of them. -/
def isGrouped (base : Nat) (cs : List Char) : Bool :=
  cs.all (Numeral.isPart base) && Numeral.grouped false cs

def digitsValue (base : Nat) (cs : List Char) : Nat := Text.ofDigits base (cs.filter (· != '_'))

/-- Decimal digits without a leading zero. -/
def isWhole (cs : List Char) : Bool :=
  isGrouped 10 cs && (cs.length == 1 || cs.head? != some '0')

/-- Takes the sign off: whether it was a minus, and the rest. -/
def unsigned : List Char → Bool × List Char
  | '-' :: r => (true, r)
  | '+' :: r => (false, r)
  | r => (false, r)

def integer? (word : List Char) : Option Int :=
  let value := match word with
    | '0' :: 'x' :: r => based 16 r
    | '0' :: 'o' :: r => based 8 r
    | '0' :: 'b' :: r => based 2 r
    | _ =>
      let (negative, r) := unsigned word
      if isWhole r then
        some (if negative then -(digitsValue 10 r : Int) else digitsValue 10 r)
      else none
  value.filter Arith.fits
where
  based (base : Nat) (r : List Char) : Option Int :=
    if isGrouped base r then some (digitsValue base r) else none

/-! ## Floats -/

/-- Whether `n * 10 ^ e` is nearer to infinity than to the largest double.  That begins half a unit
in the last place above it, and the half belongs to infinity. -/
def overflows (n : Nat) (e : Int) : Bool :=
  let bound := Nat.pow 2 1024 - Nat.pow 2 970
  let magnitude := (Nat.toDigits 10 n).length + e
  if n = 0 || magnitude < 309 then false
  else if magnitude > 309 then true
  else if e < 0 then n ≥ bound * Nat.pow 10 (-e).toNat
  else n * Nat.pow 10 e.toNat ≥ bound

/-- The exponent behind an `e`: its value, where it is well-formed. -/
def exponent? (cs : List Char) : Option Int :=
  let (negative, r) := unsigned cs
  if isGrouped 10 r then some (if negative then -(digitsValue 10 r : Int) else digitsValue 10 r)
  else none

/-- Whether these are digits with a fraction, an exponent or both, and the number is not too large.
Nothing is too far below zero. -/
def isDecimal (negative : Bool) (cs : List Char) : Bool :=
  let whole := cs.takeWhile (Numeral.isPart 10)
  let (fraction, r) := match cs.dropWhile (Numeral.isPart 10) with
    | '.' :: r => (some (r.takeWhile (Numeral.isPart 10)), r.dropWhile (Numeral.isPart 10))
    | r => (none, r)
  let exponent := match r with
    | [] => if fraction.isSome then some 0 else none
    | c :: r => if c = 'e' || c = 'E' then exponent? r else none
  match exponent with
  | none => false
  | some e =>
    let places := (fraction.getD []).filter (· != '_')
    isWhole whole && fraction.all (isGrouped 10) &&
      (negative || !overflows (digitsValue 10 (whole ++ places)) (e - places.length))

def isFloat (word : List Char) : Bool :=
  let (negative, r) := unsigned word
  r == ['i', 'n', 'f'] || r == ['n', 'a', 'n'] || isDecimal negative r

/-! ## Dates and times -/

/-- The number that decimal digits stand for, where it is within bounds. -/
def within (low high : Nat) (digits : List Char) : Option Nat :=
  if digits.all (Text.isDigitIn 10) then
    let n := Text.ofDigits 10 digits
    if low ≤ n && n ≤ high then some n else none
  else none

def daysIn (year month : Nat) : Nat :=
  if month = 2 then
    if year % 4 = 0 && (year % 100 != 0 || year % 400 = 0) then 29 else 28
  else if month = 4 || month = 6 || month = 9 || month = 11 then 30
  else 31

/-- What follows the date that a word begins with. -/
def afterDate? : List Char → Option (List Char)
  | a :: b :: c :: d :: '-' :: e :: f :: '-' :: g :: h :: r => do
    let year ← within 0 9999 [a, b, c, d]
    let month ← within 1 12 [e, f]
    let _ ← within 1 (daysIn year month) [g, h]
    return r
  | _ => none

/-- What follows the time that a word begins with.  A minute may have a second 60. -/
def afterTime? : List Char → Option (List Char)
  | a :: b :: ':' :: c :: d :: ':' :: e :: f :: r => do
    let _ ← within 0 23 [a, b]
    let _ ← within 0 59 [c, d]
    let _ ← within 0 60 [e, f]
    match r with
    | '.' :: g :: r =>
      if Text.isDigitIn 10 g then return r.dropWhile (Text.isDigitIn 10) else none
    | r => return r
  | _ => none

def isOffset : List Char → Bool
  | [] => true
  | [c] => c == 'Z' || c == 'z'
  | [s, a, b, ':', c, d] =>
    (s == '+' || s == '-') && (within 0 23 [a, b]).isSome && (within 0 59 [c, d]).isSome
  | _ => false

/-- A time of day that may carry its distance from universal time. -/
def isTimeAndOffset (word : List Char) : Bool := (afterTime? word).any isOffset

def isDate (word : List Char) : Bool := afterDate? word = some []

def isMoment (word : List Char) : Bool :=
  afterTime? word = some [] ||
  match afterDate? word with
  | some [] => true
  | some (c :: r) => (c == 'T' || c == 't') && isTimeAndOffset r
  | none => false

end Unroll.Toml

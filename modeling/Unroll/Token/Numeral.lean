import Unroll.Text.Digit
/-! # Integer literals

A literal is decimal or carries one of the prefixes `0b`, `0o` and `0x`.  Underscores may stand
between two digits and nowhere else, and the value has to fit in 64 bits.
-/
namespace Unroll.Numeral

def isPart (base : Nat) (c : Char) : Bool := c == '_' || Text.isDigitIn base c

/-- Every underscore stands between two digits.  `after` tells whether a digit stands before. -/
def grouped (after : Bool) : List Char → Bool
  | [] => after
  | c :: r => if c = '_' then after && grouped false r else grouped true r

/-- The value of a run of digits and underscores. -/
def value? (base : Nat) (cs : List Char) : Option Nat :=
  if grouped false cs then
    let v := Text.ofDigits base (cs.filter (· != '_'))
    if v < UInt64.size then some v else none
  else none

/-- Reads a literal that starts with the digit `c`: its value, none where it is malformed, and how
many characters after the first it takes.  A prefix counts only with a digit or an underscore
behind it; otherwise the literal is the zero in front of it. -/
def scan (c : Char) (rest : List Char) : Option Nat × Nat :=
  match c, rest with
  | '0', 'b' :: d :: r => if isPart 2 d then based 2 (d :: r) else plain c rest
  | '0', 'o' :: d :: r => if isPart 8 d then based 8 (d :: r) else plain c rest
  | '0', 'x' :: d :: r => if isPart 16 d then based 16 (d :: r) else plain c rest
  | _, _ => plain c rest
where
  based (base : Nat) (r : List Char) : Option Nat × Nat :=
    let run := r.takeWhile (isPart base)
    (value? base run, run.length + 1)
  plain (c : Char) (r : List Char) : Option Nat × Nat :=
    let run := r.takeWhile (isPart 10)
    (value? 10 (c :: run), run.length)

end Unroll.Numeral

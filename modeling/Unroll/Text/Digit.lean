/-! # Digits

Digits of bases up to sixteen, the number a digit string stands for, and the way back.
-/
namespace Unroll.Text

def digit? (c : Char) : Option Nat :=
  if '0' ≤ c ∧ c ≤ '9' then some (c.toNat - '0'.toNat)
  else if 'a' ≤ c ∧ c ≤ 'f' then some (c.toNat - 'a'.toNat + 10)
  else if 'A' ≤ c ∧ c ≤ 'F' then some (c.toNat - 'A'.toNat + 10)
  else none

/-- Whether `c` is a digit of the base. -/
def isDigitIn (base : Nat) (c : Char) : Bool :=
  match digit? c with
  | some d => d < base
  | none => false

/-- The number that a string of digits stands for, most significant first. -/
def ofDigits (base : Nat) (cs : List Char) : Nat :=
  cs.foldl (fun n c => n * base + (digit? c).getD 0) 0

def lowerDigit (d : Nat) : Char :=
  if d < 10 then Char.ofNat ('0'.toNat + d) else Char.ofNat ('a'.toNat + (d - 10))

/-- Lower-case hexadecimal digits, without leading zeros; zero is one `0`. -/
def hexDigits (n : Nat) : List Char :=
  if n < 16 then [lowerDigit n] else hexDigits (n / 16) ++ [lowerDigit (n % 16)]
termination_by n
decreasing_by omega

end Unroll.Text

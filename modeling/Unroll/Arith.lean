/-! # Integers of the language

Signed 64-bit integers.  Nothing wraps: a result that does not fit is an overflow.  Division goes
toward zero and the remainder has the sign of the dividend; where the quotient overflows, so does
the remainder.
-/
namespace Unroll.Arith

inductive Fault
  | overflow
  | division
deriving DecidableEq, Repr

/-- The integers are those from `-bound` on that are below `bound`. -/
def bound : Nat := 0x8000000000000000

def fits (v : Int) : Bool := -bound ≤ v && v < bound

def checked (v : Int) : Except Fault Int := if fits v then .ok v else .error .overflow

def neg (a : Int) : Except Fault Int := checked (-a)

def add (a b : Int) : Except Fault Int := checked (a + b)

def sub (a b : Int) : Except Fault Int := checked (a - b)

def mul (a b : Int) : Except Fault Int := checked (a * b)

def div (a b : Int) : Except Fault Int :=
  if b = 0 then .error .division else checked (a.tdiv b)

def rem (a b : Int) : Except Fault Int :=
  if b = 0 then .error .division
  else (checked (a.tdiv b)).map fun _ => a.tmod b

end Unroll.Arith

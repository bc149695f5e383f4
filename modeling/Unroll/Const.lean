import Unroll.Arith
import Unroll.Diagnostic
/-! # Constants

Evaluation at compile time: array lengths, value arguments of templates, indices of selections.  A
name whose argument is not known yet makes everything that is computed from it dependent, but hides
no error beside it: both operands are evaluated before the operator looks at them.
-/
namespace Unroll

inductive Const
  | int (value : Int)
  | bool (value : Bool)
  | dependent
deriving DecidableEq, Repr

namespace Const

def ofArith (span : Span) : Except Arith.Fault Int → Except Diagnostic Const
  | .ok v => .ok (.int v)
  | .error .overflow => .error (.of .constOverflow span)
  | .error .division => .error (.of .constDivision span)

def notOperand (span : Span) : Except Diagnostic Const := .error (.of (.notConstant "operand") span)

def unary (span : Span) : UnaryOp → Const → Except Diagnostic Const
  | _, .dependent => .ok .dependent
  | .neg, .int n => ofArith span (Arith.neg n)
  | .not, .bool b => .ok (.bool !b)
  | _, _ => notOperand span

def onInts (span : Span) (op : BinOp) (a b : Int) : Except Diagnostic Const :=
  match op with
  | .add => ofArith span (Arith.add a b)
  | .sub => ofArith span (Arith.sub a b)
  | .mul => ofArith span (Arith.mul a b)
  | .div => ofArith span (Arith.div a b)
  | .rem => ofArith span (Arith.rem a b)
  | .eq => .ok (.bool (a = b))
  | .ne => .ok (.bool (a ≠ b))
  | .lt => .ok (.bool (a < b))
  | .gt => .ok (.bool (a > b))
  | .le => .ok (.bool (a ≤ b))
  | .ge => .ok (.bool (a ≥ b))
  | .and | .or => notOperand span

def onBools (span : Span) (op : BinOp) (a b : Bool) : Except Diagnostic Const :=
  match op with
  | .and => .ok (.bool (a && b))
  | .or => .ok (.bool (a || b))
  | .eq => .ok (.bool (a = b))
  | .ne => .ok (.bool (a ≠ b))
  | _ => notOperand span

def binary (span : Span) (op : BinOp) : Const → Const → Except Diagnostic Const
  | .dependent, _ | _, .dependent => .ok .dependent
  | .int a, .int b => onInts span op a b
  | .bool a, .bool b => onBools span op a b
  | _, _ => notOperand span

/-- The value of an expression, where `env` gives the values of names. -/
def eval (env : String → Option Const) : Expr → Except Diagnostic Const
  | .int _ v => .ok (.int v)
  | .bool _ b => .ok (.bool b)
  | .name span id =>
    match env id.name with
    | some v => .ok v
    | none => .error (.of (.notConstant (Cause.quote id.name)) span)
  | .unary span op e => do unary span op (← eval env e)
  | .binary span l op r => do binary span op (← eval env l) (← eval env r)
  | e => .error (.of (.notConstant "expression") e.span)

/-- The value of an index, which must not be negative; none while it is dependent. -/
def evalIndex (env : String → Option Const) (e : Expr) : Except Diagnostic (Option Nat) := do
  match ← eval env e with
  | .dependent => return none
  | .int n => if 0 ≤ n then return some n.toNat else .error (.of (.indexNegative n) e.span)
  | .bool _ => .error (.of .indexNotInt e.span)

end Const

end Unroll

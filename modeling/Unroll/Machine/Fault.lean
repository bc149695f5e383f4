import Unroll.Machine.Value
import Unroll.Syntax
/-! # Errors at run time

Some of these cannot happen in a program that has been checked; a machine can also be given one that
has not.
-/
namespace Unroll

inductive Fault
  | noEntry (name : String)
  | entryParams (name : String)
  | callDepth (limit : Nat)
  | unboundName (name : String)
  | unknownCell (name : String)
  | assertionFailed
  | notUnrolled
  | boolExpected (found : ValueKind)
  | indexExpected (found : ValueKind)
  | indexNegative (index : Int)
  | indexBounds (index length : Nat)
  | notIndexable (found : ValueKind)
  | noField (kind : ValueKind) (name : String)
  | lenArg
  | overflow
  | division
  | operand (found : ValueKind)
  | operator (op : BinOp) (left right : ValueKind)
  | incomparable (left right : ValueKind)
  | strayList
  | selectionOf
  | listIndex (index : Nat)
  | memberIndex (index : Nat)
  | selectedField (name : String)
deriving DecidableEq, Repr

namespace Fault

def message : Fault → String
  | noEntry n => "no cell named '" ++ n ++ "' to run"
  | entryParams n => "entry cell '" ++ n ++ "' must not take arguments"
  | callDepth limit => s!"call depth limit of {limit} exceeded"
  | unboundName n => "unbound name '" ++ n ++ "'"
  | unknownCell n => "unknown cell '" ++ n ++ "'"
  | assertionFailed => "assertion failed"
  | notUnrolled => "expansion statement was never expanded"
  | boolExpected k => "expected bool, found " ++ k.label
  | indexExpected k => "index must be int, found " ++ k.label
  | indexNegative n => s!"negative index {n}"
  | indexBounds i n => s!"index {i} out of bounds for length {n}"
  | notIndexable k => "cannot index " ++ k.label
  | noField k n => k.label ++ " has no field '" ++ n ++ "'"
  | lenArg => "len expects an array"
  | overflow => "integer overflow"
  | division => "division by zero"
  | operand k => "unsupported operand " ++ k.label
  | operator op l r =>
    "operator '" ++ op.spelling ++ "' cannot be applied to " ++ l.label ++ " and " ++ r.label
  | incomparable l r => "cannot compare " ++ l.label ++ " and " ++ r.label
  | strayList => "a brace-enclosed list has no runtime value"
  | selectionOf => "malformed list selection"
  | listIndex i => s!"list index {i} out of bounds"
  | memberIndex i => s!"member index {i} out of bounds"
  | selectedField n => "no field '" ++ n ++ "'"

end Fault

structure RuntimeError where
  fault : Fault
  span : Span
deriving DecidableEq, Repr

def RuntimeError.message (e : RuntimeError) : String := e.fault.message

end Unroll

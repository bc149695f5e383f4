import Unroll.Checker.Program
/-! # Asking the checker

Single questions and single steps, for a caller that drives the checker piece by piece.  Each of
them is the step that checking a program takes; what the caller adds is the place it is taken at.
-/
namespace Unroll.Check

open CheckM

/-- A description of the place. -/
structure Context where
  cell : Option String
  /-- One for each generic cell and each expansion around the place. -/
  templateDepth : Nat
  inLoop : Bool
  inInstantiation : Bool
deriving DecidableEq, Repr

def context (s : Checker) : Context where
  cell := s.place.cell
  templateDepth := s.place.templates.length
  inLoop := 0 < s.place.loopDepth
  inInstantiation := !s.frames.isEmpty

/-- Runs the step inside one more template level. -/
def withParams {α : Type} (level : ParamLevel) (x : CheckM α) : CheckM α :=
  inScope do
    onPlace (Place.pushTemplate level)
    x

/-- Runs the step with as many levels as its state allows. -/
def stepping {α : Type} (x : Deeper → CheckM α) : CheckM α := do x (fromHere (← get))

/-- What substituting into a template gives. -/
inductive Substituted
  | type (type : Ty)
  | cell (name : String) (sig : CellSig)

/-- Substitutes into the template of the given kind and name. -/
def substituteArgs (deeper : Deeper) (kind : TemplateKind) (id : Ident)
    (args : List TemplateArg) : CheckM Substituted := do
  match kind with
  | .typeAlias => return .type (← instantiateAlias deeper id args)
  | .cell =>
    let (name, sig) ← instantiateCell deeper id args
    return .cell name sig
  | .variable_ | .predicate =>
    ofExcept (checkArgs (← get) kind id args)
    fail (.noTemplate kind id.name) id.span

/-- The constant that an expression stands for, and where it stands. -/
def annotation (e : Expr) : CheckM (Const × Span) := do return (← const e, e.span)

end Unroll.Check

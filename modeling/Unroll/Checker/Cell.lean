import Unroll.Checker.Types
/-! # Cells and their instances

A generic cell is checked once as a template, with its parameters unknown, and then once for each
list of arguments that is asked for.  An instance is made from the elaborated template, and its
signature is known before its body is checked, so a recursive cell finds its own instance.
-/
namespace Unroll.Check

open CheckM

/-- Statements directly in a cell recover from errors one by one, unless the cell is being
instantiated: then the first error counts.  A declaration that failed leaves its name behind, with
an erroneous type. -/
def cellStmts (deeper : Deeper) : List Stmt → CheckM (List Stmt)
  | [] => return []
  | s :: ss => do
    let checked ← try some <$> deeper.stmt s
      catch d => do
        if (← get).frames.isEmpty then
          if let .val v := s then
            try defineVal v.name .error true catch _ => pure ()
          modify (·.report d)
          pure none
        else throw d
    let rest ← cellStmts deeper ss
    return match checked with
      | some s => s :: rest
      | none => rest

def defineParams : List CellParam → List Param → CheckM Unit
  | p :: ps, a :: as => do
    defineVal a.name p.type p.mutable
    defineParams ps as
  | _, _ => return ()

/-- Checks a cell against its signature; the caller has put it into a place of its own. -/
def cellBody (deeper : Deeper) (c : CellDef) (sig : CellSig) : CheckM CellDef := do
  onPlace Place.pushScope
  defineParams sig.params c.args
  onPlace fun p => { p with rets := sig.ret :: p.rets, cell := some c.name.name }
  let stmts ← cellStmts deeper c.body.stmts
  return { c with body := { c.body with stmts } }

def modifyGeneric (name : String) (f : GenericInfo → GenericInfo) (s : Checker) : Checker :=
  match s.generics.find? name with
  | some g => { s with generics := s.generics.insert name (f g) }
  | none => s

/-- Checks the template of a generic cell, unless that has been done or is under way. -/
def elaborateTemplate (deeper : Deeper) (name : String) : CheckM Unit := do
  let s ← get
  match s.generics.find? name with
  | none => return ()
  | some g =>
    if g.elaborated || s.elaborating.contains name then return ()
    modify fun s => { s with elaborating := name :: s.elaborating }
    let check : CheckM CellDef := apart do
      onPlace (Place.pushTemplate g.params)
      let sig ← signature deeper g.cell
      cellBody deeper g.cell sig
    let cell ← always check fun s =>
      modifyGeneric name (fun g => { g with elaborated := true })
        { s with elaborating := s.elaborating.erase name }
    modify (modifyGeneric name fun g => { g with cell })

/-- Substitutes into the template and checks the result. -/
def instanceBody (deeper : Deeper) (template : CellDef) (ls : ArgLevels) (name : String) :
    CheckM (CellDef × CellSig) := do
  let concrete ← ofExcept (Subst.cell ls template name)
  apart do
    let sig ← signature deeper concrete
    modify fun s => { s with cells := s.cells.insert name sig }
    return (← cellBody deeper concrete sig, sig)

/-- An instance that turns out to be wrong is forgotten, and its error is reported where it was
asked for. -/
def forInstance {α : Type} (name : String) (asked : Span) (x : CheckM α) : CheckM α := do
  try x
  catch d =>
    modify fun s => { s with cells := s.cells.erase name }
    throw (d.inCell name asked)

/-- The instance of a generic cell for the arguments: its name and signature. -/
def instantiateCell (deeper : Deeper) (id : Ident) (args : List TemplateArg) :
    CheckM (String × CellSig) := do
  ofExcept (checkArgs (← get) .cell id args)
  let name := mangle id.name args
  match (← get).cells.find? name with
  | some sig => return (name, sig)
  | none =>
    elaborateTemplate deeper id.name
    match (← get).generics.find? id.name with
    | none => fail (.unknownTemplate .cell id.name) id.span
    | some g =>
      let ls := ArgLevels.bind [] g.params.names args
      let (cell, sig) ← within ⟨.cell name, id.span⟩ <|
        forInstance name id.span (instanceBody deeper g.cell ls name)
      modify (·.addEvent ⟨.cell, name, some sig.ret, id.span, none⟩)
      modify fun s => { s with instances := cell :: s.instances }
      return (name, sig)

/-! ## Deduction

Arguments that a call leaves out are read off the types of its arguments: where a parameter is typed
by a bare name, and where an array in it has a bare name as its length. -/

abbrev Deduced := List (Option TemplateArg)

/-- Gives the parameter of the name its argument; two different arguments are in conflict. -/
def bindParam (cell name : String) (arg : TemplateArg) (span : Span) :
    List ParamDecl → Deduced → Except Diagnostic Deduced
  | p :: ps, b :: bs =>
    if p.name = name then
      match b with
      | some old =>
        if old = arg then .ok (b :: bs)
        else .error (.of (.conflictingDeduction name cell old arg) span)
      | none => .ok (some arg :: bs)
    else (bindParam cell name arg span ps bs).map (b :: ·)
  | _, bs => .ok bs

def isTypeParam (params : ParamLevel) (name : String) : Bool :=
  match params.find? name with
  | some ⟨_, .type _⟩ => true
  | _ => false

def deduceFrom (cell : String) (params : ParamLevel) :
    TypeRef → Ty → Deduced → Except Diagnostic Deduced
  | .named span id [], actual, bound =>
    if isTypeParam params id.name then
      bindParam cell id.name (.type actual) span params.params bound
    else .ok bound
  | .array _ elem len, .array actual (some n), bound => do
    let bound ← match len with
      | .name _ id =>
        if n < Arith.bound then bindParam cell id.name (.value n) len.span params.params bound
        else .error (.of .lengthRange len.span)
      | _ => .ok bound
    deduceFrom cell params elem actual bound
  | _, _, bound => .ok bound

def deduceAll (cell : String) (params : ParamLevel) :
    List TypeRef → List Ty → Deduced → Except Diagnostic Deduced
  | p :: ps, t :: ts, bound => do deduceAll cell params ps ts (← deduceFrom cell params p t bound)
  | _, _, bound => .ok bound

/-- The arguments that are given, and nothing yet for the parameters after them. -/
def givenArgs : List ParamDecl → List TemplateArg → Deduced
  | [], _ => []
  | _ :: ps, a :: as => some a :: givenArgs ps as
  | _ :: ps, [] => none :: givenArgs ps []

def allDeduced (cell : Ident) : List ParamDecl → Deduced → Except Diagnostic (List TemplateArg)
  | p :: ps, b :: bs => do
    match b with
    | some a => return a :: (← allDeduced cell ps bs)
    | none => .error (.of (.notDeduced p.name cell.name) cell.span)
  | _, _ => .ok []

/-- Completes given arguments by what the types of a call's arguments tell. -/
def deduce (s : Checker) (id : Ident) (given : List TemplateArg) (types : List Ty) :
    Except Diagnostic (List TemplateArg) := do
  match s.generics.find? id.name with
  | none => .error (.of (.unknownTemplate .cell id.name) id.span)
  | some g =>
    let patterns := g.cell.args.map (·.type)
    if patterns.length ≠ types.length then
      .error (.of (.callArity id.name patterns.length types.length) id.span)
    else
      let bound ← deduceAll id.name g.params patterns types (givenArgs g.params.params given)
      allDeduced id g.params.params bound

end Unroll.Check

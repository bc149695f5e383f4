import Unroll.Checker.Stmt
import Unroll.Printer
/-! # Programs

Declarations may refer to later ones, so a program is gone over several times: names of traits and
records, then fields, aliases and signatures, then templates, then concrete cells.  Errors are
collected; the first one is the answer.
-/
namespace Unroll

/-- A program that passed, with the instances of generic cells that it needs. -/
structure CheckedProgram where
  /-- Concrete cells are elaborated, generic ones are kept as checked templates. -/
  program : Program
  /-- In the order in which they were first needed. -/
  instances : List CellDef

namespace CheckedProgram

/-- Every cell that can run: concrete cells, then instances. -/
def cells (p : CheckedProgram) : List CellDef :=
  (p.program.filterMap fun
    | .cell c => if c.isGeneric then none else some c
    | _ => none) ++ p.instances

def templates (p : CheckedProgram) : List CellDef :=
  p.program.filterMap fun
    | .cell c => if c.isGeneric then some c else none
    | _ => none

/-- The program with its unrolled expansions, followed by the instances. -/
def print (p : CheckedProgram) : String :=
  Program.printUnrolled (p.program ++ p.instances.map .cell)

end CheckedProgram

namespace Check

open CheckM

/-- Runs the check of one declaration and keeps its error. -/
def collecting (x : CheckM Unit) : CheckM Unit := do
  try x catch d => modify (·.report d)

def declareTrait (id : Ident) : CheckM Unit := do
  if (← get).traits.contains id.name then fail (.traitDefined id.name) id.span
  modify fun s => { s with traits := id.name :: s.traits }

def checkTypeName (id : Ident) : CheckM Unit := do
  let s ← get
  if s.records.contains id.name || s.aliases.contains id.name then
    fail (.typeDefined id.name) id.span

/-- Adds a name to the global types, the outermost scope. -/
def addGlobal (name : String) : List (Table String) → List (Table String)
  | [] => []
  | [globals] => [globals.insert name name]
  | scope :: outer => scope :: addGlobal name outer

/-- Makes the name of a record known; its fields come later. -/
def declareRecord (id : Ident) : CheckM Unit := do
  checkTypeName id
  modify (·.addRecord id.name [])
  onPlace fun p => { p with types := addGlobal id.name p.types }

def declareAlias (deeper : Deeper) (id : Ident) (params : List TemplateParam) (target : TypeRef) :
    CheckM Unit := do
  checkTypeName id
  let info ←
    if params.isEmpty then AliasInfo.plain <$> typeRef deeper target
    else do
      let decls ← ofExcept (paramDecls (← get) [] params)
      pure (.generic ⟨0, decls⟩ target)
  modify fun s => { s with aliases := s.aliases.insert id.name info }

def declareCell (deeper : Deeper) (c : CellDef) : CheckM Unit := do
  let name := c.name.name
  if isBuiltin name then fail (.cellReserved name) c.name.span
  let s ← get
  if s.cells.contains name || s.generics.contains name then fail (.cellDefined name) c.name.span
  if c.isGeneric then
    let decls ← ofExcept (paramDecls s [] c.params)
    modify fun s => { s with generics := s.generics.insert name ⟨c, ⟨0, decls⟩, false⟩ }
  else
    let sig ← signature deeper c
    modify fun s => { s with cells := s.cells.insert name sig }

/-- Names of traits and records. -/
def declareName : Stmt → CheckM Unit
  | .trait _ id => declareTrait id
  | .record d => declareRecord d.name
  | .typeAlias _ _ _ _ | .cell _ => return ()
  | s => fail .notDeclaration s.span

/-- Fields, aliases and signatures. -/
def declare (deeper : Deeper) : Stmt → CheckM Unit
  | .record d => do
    let fields ← recordFields deeper d.name [] d.fields
    modify (·.addRecord d.name.name fields)
  | .typeAlias _ id params target => declareAlias deeper id params target
  | .cell c => declareCell deeper c
  | _ => return ()

def elaborateTemplates (deeper : Deeper) : Stmt → CheckM Unit
  | .cell c => if c.isGeneric then elaborateTemplate deeper c.name.name else return ()
  | _ => return ()

/-- A cell whose signature is wrong has been reported and is left alone. -/
def concreteCell (deeper : Deeper) (c : CellDef) : CheckM CellDef := do
  match (← get).cells.find? c.name.name with
  | none => return c
  | some sig => apart (cellBody deeper c sig)

def elaborateStmt (deeper : Deeper) : Stmt → CheckM Stmt
  | .cell c => do
    if c.isGeneric then
      return .cell (match (← get).generics.find? c.name.name with
        | some g => g.cell
        | none => c)
    else
      try .cell <$> concreteCell deeper c
      catch d =>
        modify (·.report d)
        pure (.cell c)
  | s => return s

/-- Checks a whole program.  What earlier programs declared stays declared; their diagnostics are
dropped, and the instances go to the program that passes. -/
def program (p : Program) : CheckM CheckedProgram := do
  modify fun s => { s with diagnostics := [] }
  p.forM fun s => collecting (declareName s)
  p.forM fun s => do collecting (declare (fromHere (← get)) s)
  p.forM fun s => do collecting (elaborateTemplates (fromHere (← get)) s)
  let stmts ← p.mapM fun s => do elaborateStmt (fromHere (← get)) s
  let s ← get
  match s.diagnostics.getLast? with
  | some first => throw first
  | none =>
    modify fun s => { s with instances := [] }
    return ⟨stmts, s.instances.reverse⟩

end Check

/-- Checks a program on its own. -/
def Program.check (p : Program) (config : Config) : Except Diagnostic CheckedProgram :=
  match Check.program p (Checker.new config) with
  | .ok checked _ => .ok checked
  | .error d _ => .error d

end Unroll

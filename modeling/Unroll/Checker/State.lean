import Unroll.Table
import Unroll.Const
import Unroll.Template.Frames
/-! # The state of the checker

What has been declared, where the checker stands, and what it has produced so far.  The place is a
value of its own: a cell is checked on its own by putting a fresh place in, and putting the old one
back afterwards.  Scopes are stacks, so a place can also be marked, by the heights of its stacks,
and left again by cutting them back.

An error keeps the state it was met in.  What has to be undone is undone by `always`, on success and
on failure alike.
-/
namespace Unroll

structure Config where
  maxInstantiationDepth : Nat
  maxExpansionSize : Nat
deriving DecidableEq, Repr

def Config.standard : Config := ⟨1024, 65536⟩

structure ValInfo where
  type : Ty
  mutable : Bool
deriving DecidableEq, Repr

structure FieldInfo where
  name : String
  type : Ty
  hidden : Bool
deriving DecidableEq, Repr

structure RecordInfo where
  /-- The canonical name. -/
  name : String
  fields : List FieldInfo
deriving DecidableEq, Repr

namespace RecordInfo

def field? (r : RecordInfo) (name : String) : Option FieldInfo := r.fields.find? (·.name = name)

end RecordInfo

structure CellParam where
  name : String
  type : Ty
  mutable : Bool
deriving DecidableEq, Repr

structure CellSig where
  params : List CellParam
  ret : Ty
deriving DecidableEq, Repr

inductive AliasInfo
  | plain (type : Ty)
  | generic (params : ParamLevel) (target : TypeRef)

structure GenericInfo where
  /-- As written, and once the template has been checked, as elaborated. -/
  cell : CellDef
  params : ParamLevel
  elaborated : Bool

inductive EventKind
  | val
  | record
  | cell
deriving DecidableEq, Repr

namespace EventKind

def label : EventKind → String
  | val => "val"
  | record => "record"
  | cell => "cell"

end EventKind

/-- The news of one declaration. -/
structure Event where
  kind : EventKind
  name : String
  type : Option Ty
  span : Span
  /-- The copy of an expansion that introduced it. -/
  index : Option Nat
deriving DecidableEq, Repr

/-- The heights of the scope stacks at some point. -/
structure Mark where
  values : Nat
  types : Nat
  templates : Nat
  loopDepth : Nat
deriving DecidableEq, Repr

/-- The scope that one copy of a body declares its names in. -/
structure LocalScope where
  mark : Mark
  /-- Newest first. -/
  introduced : List String
deriving DecidableEq, Repr

/-- Where the checker stands.  Every stack has its innermost entry first. -/
structure Place where
  values : List (Table ValInfo)
  /-- From written names of records to canonical ones. -/
  types : List (Table String)
  templates : List ParamLevel
  loopDepth : Nat
  rets : List Ty
  cell : Option String
  locals : List LocalScope

namespace Place

/-- Outside of all cells, with the given global types. -/
def outside (globals : Table String) : Place := ⟨[[]], [globals], [], 0, [], none, []⟩

def mark (p : Place) : Mark := ⟨p.values.length, p.types.length, p.templates.length, p.loopDepth⟩

/-- Cuts a stack back to a height. -/
def cut {α : Type} (stack : List α) (height : Nat) : List α := stack.drop (stack.length - height)

def restore (m : Mark) (p : Place) : Place :=
  { p with
    values := cut p.values m.values
    types := cut p.types m.types
    templates := cut p.templates m.templates
    loopDepth := m.loopDepth }

def pushScope (p : Place) : Place := { p with values := [] :: p.values, types := [] :: p.types }

def pushTemplate (l : ParamLevel) (p : Place) : Place := { p with templates := l :: p.templates }

def enterLoop (p : Place) : Place := { p with loopDepth := p.loopDepth + 1 }

def enterLocal (p : Place) : Place :=
  let q := p.pushScope
  { q with locals := ⟨p.mark, []⟩ :: q.locals }

def exitLocal (p : Place) : Place :=
  match p.locals with
  | [] => p
  | l :: ls => { p.restore l.mark with locals := ls }

def recordLocal (name : String) (p : Place) : Place :=
  match p.locals with
  | [] => p
  | l :: ls => { p with locals := { l with introduced := name :: l.introduced } :: ls }

/-- The innermost template parameter of the name. -/
def param? (p : Place) (name : String) : Option ParamDecl :=
  p.templates.findSome? (·.find? name)

def val? (p : Place) (name : String) : Option ValInfo :=
  p.values.findSome? (Table.find? · name)

/-- What constant evaluation sees: value parameters, whose arguments are not known. -/
def constant? (p : Place) (name : String) : Option Const :=
  match p.param? name with
  | some ⟨_, .const⟩ => some .dependent
  | _ => none

end Place

structure Checker where
  config : Config
  traits : List String
  aliases : Table AliasInfo
  /-- By canonical name. -/
  records : Table RecordInfo
  /-- Cells that can be called as they are, instances among them. -/
  cells : Table CellSig
  generics : Table GenericInfo
  /-- Generic cells whose templates are being checked. -/
  elaborating : List String
  place : Place
  frames : Frames
  /-- Newest first. -/
  instances : List CellDef
  /-- How many local records there have been. -/
  recordCount : Nat
  /-- Newest first. -/
  events : List Event
  /-- Newest first. -/
  diagnostics : List Diagnostic

namespace Checker

def new (config : Config) : Checker where
  config
  traits := []
  aliases := []
  records := []
  cells := []
  generics := []
  elaborating := []
  place := .outside []
  frames := .empty config.maxInstantiationDepth
  instances := []
  recordCount := 0
  events := []
  diagnostics := []

def onPlace (f : Place → Place) (s : Checker) : Checker := { s with place := f s.place }

def addEvent (e : Event) (s : Checker) : Checker := { s with events := e :: s.events }

def report (d : Diagnostic) (s : Checker) : Checker := { s with diagnostics := d :: s.diagnostics }

def addRecord (canonical : String) (fields : List FieldInfo) (s : Checker) : Checker :=
  { s with records := s.records.insert canonical ⟨canonical, fields⟩ }

/-- The record that a type names. -/
def record? (s : Checker) : Ty → Option RecordInfo
  | .record n => s.records.find? n
  | _ => none

/-- The canonical name of a record.  A local record that was put in by substitution is written
with its canonical name already. -/
def recordName? (s : Checker) (name : String) : Option String :=
  match s.place.types.findSome? (Table.find? · name) with
  | some canonical => some canonical
  | none => if name.toList.contains '\'' && s.records.contains name then some name else none

end Checker

abbrev CheckM := EStateM Diagnostic Checker

namespace CheckM

variable {α : Type}

def fail (cause : Cause) (span : Span) : CheckM α := throw (.of cause span)

/-- Runs the action and then changes the state, whether it succeeds or fails. -/
def always (x : CheckM α) (after : Checker → Checker) : CheckM α := fun s =>
  match x s with
  | .ok a s => .ok a (after s)
  | .error d s => .error d (after s)

def onPlace (f : Place → Place) : CheckM Unit := modify (·.onPlace f)

def place : CheckM Place := return (← get).place

/-- Runs the action and leaves the scopes that it entered. -/
def inScope (x : CheckM α) : CheckM α := do
  let mark := (← place).mark
  always x (·.onPlace (·.restore mark))

/-- Runs the action as if outside of all cells. -/
def apart (x : CheckM α) : CheckM α := do
  let old ← place
  onPlace fun p => .outside (p.types.getLastD [])
  always x (·.onPlace fun _ => old)

/-- Runs the action with one more instantiation under way. -/
def within (frame : Frame) (x : CheckM α) : CheckM α := do
  let frames ← ofExcept ((← get).frames.push frame)
  modify ({ · with frames })
  always x (fun s => { s with frames := s.frames.pop.2 })

/-- Evaluates a constant in the current place. -/
def const (e : Expr) : CheckM Const := do ofExcept (Const.eval (← place).constant? e)

def constIndex (e : Expr) : CheckM (Option Nat) := do
  ofExcept (Const.evalIndex (← place).constant? e)

end CheckM

end Unroll

import Unroll.Arith
import Unroll.Checker.Program
import Unroll.Machine.Fault
/-! # The machine

A tree-walking interpreter of elaborated programs.  Evaluation follows the tree, and two things go
beyond it.  Calls go down by one level each, and the levels are the call depths that are left: where
none is left, the call fails as a call beyond the limit.  Loops may go round for ever, so each run
of a loop gets a number of rounds; needing more ends the run as `exhausted`, which is neither a
value nor an error of the program.

What a failed run printed stays in the machine, and comes out with the next run that succeeds.
-/
namespace Unroll

/-- How a statement ends. -/
inductive Flow
  | next
  | leave
  | again
  | give (value : Value)

/-- Why a run ends early. -/
inductive Halt
  | error (error : RuntimeError)
  | exhausted

structure Machine where
  /-- One frame for each active call, each a stack of scopes; innermost first. -/
  frames : List (List (Table Value))
  out : String

namespace Machine

def new : Machine := ⟨[], ""⟩

end Machine

abbrev Run := EStateM Halt Machine

namespace Run

variable {α : Type}

def fail (fault : Fault) (span : Span) : Run α := throw (.error ⟨fault, span⟩)

/-- Runs the action and then changes the machine, whether it succeeds or fails. -/
def always (x : Run α) (after : Machine → Machine) : Run α := fun m =>
  match x m with
  | .ok a m => .ok a (after m)
  | .error h m => .error h (after m)

def onScopes (f : List (Table Value) → List (Table Value)) : Run Unit :=
  modify fun m => { m with frames := match m.frames with
    | [] => []
    | scopes :: outer => f scopes :: outer }

def popScope (m : Machine) : Machine :=
  { m with frames := match m.frames with
    | [] => []
    | scopes :: outer => scopes.tail :: outer }

/-- Runs the action in a new scope. -/
def inScope (x : Run α) : Run α := do
  onScopes ([] :: ·)
  always x popScope

/-- Runs the action in a new frame with the given scope. -/
def inFrame (scope : Table Value) (x : Run α) : Run α := do
  modify fun m => { m with frames := [scope] :: m.frames }
  always x fun m => { m with frames := m.frames.tail }

def define (name : String) (v : Value) : Run Unit :=
  onScopes fun
    | [] => []
    | scope :: outer => scope.insert name v :: outer

def lookup (name : String) (span : Span) : Run Value := do
  match ((← get).frames.headD []).findSome? (Table.find? · name) with
  | some v => return v
  | none => fail (.unboundName name) span

/-- The scopes with a new value for the innermost entry of the name; none where it has no entry. -/
def update? (name : String) (v : Value) : List (Table Value) → Option (List (Table Value))
  | [] => none
  | scope :: outer =>
    if scope.contains name then some (scope.set name v :: outer)
    else (update? name v outer).map (scope :: ·)

def assign (name : String) (v : Value) (span : Span) : Run Unit := do
  match update? name v ((← get).frames.headD []) with
  | some scopes => onScopes fun _ => scopes
  | none => fail (.unboundName name) span

def print (s : String) : Run Unit := modify fun m => { m with out := m.out ++ s }

end Run

namespace Eval

open Run

/-- What evaluation needs beyond the tree. -/
structure World where
  cells : Table CellDef
  /-- Calls a cell, one level down. -/
  call : CellDef → List Value → Span → Run Value
  /-- How often one loop may go round. -/
  rounds : Nat

def ofArith (span : Span) : Except Arith.Fault Int → Run Value
  | .ok v => return .int v
  | .error .overflow => fail .overflow span
  | .error .division => fail .division span

def asBool (span : Span) : Value → Run Bool
  | .bool b => return b
  | v => fail (.boolExpected v.kind) span

def asIndex (span : Span) : Value → Run Nat
  | .int n => if 0 ≤ n then return n.toNat else fail (.indexNegative n) span
  | v => fail (.indexExpected v.kind) span

def unary (span : Span) (op : UnaryOp) (v : Value) : Run Value :=
  match op, v with
  | .neg, .int n => ofArith span (Arith.neg n)
  | .not, .bool b => return .bool !b
  | _, v => fail (.operand v.kind) span

/-- How two values compare: numbers with numbers and characters with characters. -/
def order? : Value → Value → Option Ordering
  | .int a, .int b => some (compare a b)
  | .char a, .char b => some (compare a.toNat b.toNat)
  | _, _ => none

def comparison (span : Span) (accept : Ordering → Bool) (l r : Value) : Run Value :=
  match order? l r with
  | some o => return .bool (accept o)
  | none => fail (.incomparable l.kind r.kind) span

/-- Operators that evaluate both operands.  Any two values can be tested for equality. -/
def binary (span : Span) (op : BinOp) (l r : Value) : Run Value :=
  match op, l, r with
  | .add, .int a, .int b => ofArith span (Arith.add a b)
  | .sub, .int a, .int b => ofArith span (Arith.sub a b)
  | .mul, .int a, .int b => ofArith span (Arith.mul a b)
  | .div, .int a, .int b => ofArith span (Arith.div a b)
  | .rem, .int a, .int b => ofArith span (Arith.rem a b)
  | .add, .text a, .text b => return .text (a ++ b)
  | .eq, l, r => return .bool (l = r)
  | .ne, l, r => return .bool (l ≠ r)
  | .lt, l, r => comparison span Ordering.isLT l r
  | .gt, l, r => comparison span Ordering.isGT l r
  | .le, l, r => comparison span Ordering.isLE l r
  | .ge, l, r => comparison span Ordering.isGE l r
  | op, l, r => fail (.operator op l.kind r.kind) span

def member (span : Span) (base : Value) (name : String) : Run Value :=
  match base.field? name with
  | some v => return v
  | none => fail (.noField base.kind name) span

def element (span indexSpan : Span) (base : Value) (index : Nat) : Run Value :=
  match base with
  | .array items =>
    match items[index]? with
    | some v => return v
    | none => fail (.indexBounds index items.length) indexSpan
  | v => fail (.notIndexable v.kind) span

def call (w : World) (span : Span) (name : String) (args : List Value) : Run Value :=
  match name with
  | "print" => do
    print (String.join (args.map Value.display) ++ "\n")
    return .unit
  | "len" =>
    match args.head? with
    | some (.array items) => return .int items.length
    | _ => fail .lenArg span
  | _ =>
    match w.cells.find? name with
    | some c => w.call c args span
    | none => fail (.unknownCell name) span

mutual

def expr (w : World) : Expr → Run Value
  | .name _ id => lookup id.name id.span
  | .int _ v => return .int v
  | .char _ c => return .char c
  | .bool _ b => return .bool b
  | .text _ s => return .text s
  | .list span _ => fail .strayList span
  | .array _ items => .array <$> exprs w items
  | .record _ type fs => .record type.name <$> fields w fs
  | .unary span op e => do unary span op (← expr w e)
  | .binary _ l .and r => do
    if ← asBool l.span (← expr w l) then return .bool (← asBool r.span (← expr w r))
    else return .bool false
  | .binary _ l .or r => do
    if ← asBool l.span (← expr w l) then return .bool true
    else return .bool (← asBool r.span (← expr w r))
  | .binary span l op r => do
    let a ← expr w l
    let b ← expr w r
    binary span op a b
  | .member _ base m => do member m.span (← expr w base) m.name
  | .index span base index => do
    let b ← expr w base
    let i ← asIndex index.span (← expr w index)
    element span index.span b i
  | .call span callee _ args => do call w span callee.name (← exprs w args)
  | .listSelect span (.list _ items) index => do
    let i ← asIndex index.span (← expr w index)
    nth w span i items i
  | .listSelect span _ _ => fail .selectionOf span
  | .memberSelect span base members index => do
    let i ← asIndex index.span (← expr w index)
    match members[i]? with
    | none => fail (.memberIndex i) span
    | some m =>
      match (← expr w base).field? m.name with
      | some v => return v
      | none => fail (.selectedField m.name) span

def exprs (w : World) : List Expr → Run (List Value)
  | [] => return []
  | e :: es => do return (← expr w e) :: (← exprs w es)

def fields (w : World) : List (Ident × Expr) → Run (List (String × Value))
  | [] => return []
  | (f, e) :: fs => do return (f.name, ← expr w e) :: (← fields w fs)

/-- Evaluates the one item that an index selects. -/
def nth (w : World) (span : Span) (index : Nat) : List Expr → Nat → Run Value
  | e :: _, 0 => expr w e
  | _ :: es, n + 1 => nth w span index es n
  | [], _ => fail (.listIndex index) span

end

def condition (w : World) (e : Expr) : Run Bool := do asBool e.span (← expr w e)

/-- Goes round while the condition holds, so many times at most. -/
def rounds (condition : Run Bool) (body : Run Flow) : Nat → Run Flow
  | 0 => throw .exhausted
  | n + 1 => do
    if ← condition then
      match ← body with
      | .leave => return .next
      | .give v => return .give v
      | .next | .again => rounds condition body n
    else return .next

def init (w : World) : Option Init → Run Unit
  | none => return ()
  | some (.val d) => do define d.name.name (← expr w d.expr)
  | some (.expr e) => do let _ ← expr w e

def binding (w : World) : Option ValDecl → Run Unit
  | none => return ()
  | some d => do define d.name.name (← expr w d.expr)

/-- The range of an expansion without elements: a list is not evaluated, anything else is. -/
def emptyRange (w : World) : Expr → Run Unit
  | .list _ _ => return ()
  | e => do let _ ← expr w e

mutual

def stmt (w : World) : Stmt → Run Flow
  | .typeAlias _ _ _ _ | .trait _ _ | .record _ | .cell _ => return .next
  | .val d => do
    define d.name.name (← expr w d.expr)
    return .next
  | .assign _ target e => do
    assign target.name (← expr w e) target.span
    return .next
  | .cond _ c yes none => do
    if ← condition w c then block w yes else return .next
  | .cond _ c yes (some no) => do
    if ← condition w c then block w yes else block w no
  | .loop _ c body => rounds (condition w c) (block w body) w.rounds
  | .expand x => inScope (expansion w x)
  | .leave _ => return .leave
  | .next _ => return .again
  | .give _ none => return .give .unit
  | .give _ (some e) => .give <$> expr w e
  | .assert _ e => do
    if ← condition w e then return .next else fail .assertionFailed e.span
  | .expr e => do
    let _ ← expr w e
    return .next

def stmts (w : World) : List Stmt → Run Flow
  | [] => return .next
  | s :: ss => do
    match ← stmt w s with
    | .next => stmts w ss
    | flow => return flow

def block (w : World) : Block → Run Flow
  | ⟨_, ss⟩ => inScope (stmts w ss)

/-- The first statement, then the binding of the range, then the copies in order. -/
def expansion (w : World) : Expansion → Run Flow
  | ⟨_, keyword, first, _, range, _, _, state⟩ => do
    init w first
    unrolling w keyword range state

def unrolling (w : World) (keyword : Span) (range : Expr) : Unrolling → Run Flow
  | .pending | .deferred => fail .notUnrolled keyword
  | .empty => do
    emptyRange w range
    return .next
  | .unrolled b cs => do
    binding w b
    copies w cs

def copies (w : World) : List Copy → Run Flow
  | [] => return .next
  | c :: cs => do
    match ← copy w c with
    | .next | .again => copies w cs
    | .leave => return .next
    | .give v => return .give v

def copy (w : World) : Copy → Run Flow
  | ⟨_, body⟩ => block w body

end

/-- Runs the body of a cell in a frame of its own.  Falling off the end gives unit. -/
def cell (w : World) (c : CellDef) (args : List Value) : Run Value :=
  inFrame ((c.args.map (·.name.name)).zip args).reverse do
    match ← stmts w c.body.stmts with
    | .give v => return v
    | _ => return .unit

/-- Calls a cell where so many more calls may be active at once. -/
def callAt (cells : Table CellDef) (limit loopRounds : Nat) :
    Nat → CellDef → List Value → Span → Run Value
  | 0, _, _, span => fail (.callDepth limit) span
  | n + 1, c, args, _ => cell ⟨cells, callAt cells limit loopRounds n, loopRounds⟩ c args

end Eval

/-! ## Running a program -/

structure Outcome where
  value : Value
  /-- Everything that was printed, one line for each call of `print`. -/
  out : String
deriving DecidableEq, Repr

/-- How far a run may go. -/
structure Bounds where
  callDepth : Nat
  loopRounds : Nat

/-- The usual call depth, and more rounds than a loop will ever go. -/
def Bounds.standard : Bounds := ⟨256, 0x4000000000000000⟩

namespace Machine

/-- The cells by name; of two with one name the later one counts. -/
def cellTable (p : CheckedProgram) : Table CellDef :=
  (p.cells.map fun c => (c.name.name, c)).reverse

/-- Runs a cell without parameters. -/
def runEntry (p : CheckedProgram) (b : Bounds) (entry : String) : Run Outcome := do
  let cells := cellTable p
  match cells.find? entry with
  | none => Run.fail (.noEntry entry) ⟨0, 0⟩
  | some c =>
    if !c.args.isEmpty then Run.fail (.entryParams entry) c.name.span
    let v ← Eval.callAt cells b.callDepth b.loopRounds b.callDepth c [] c.name.span
    let out := (← get).out
    modify fun m => { m with out := "" }
    return ⟨v, out⟩

end Machine

end Unroll

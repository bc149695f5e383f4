import Unroll.Machine.Source
import Unroll.Proofs.Typing
/-!
# Running a program as it is written

An interpreter that agrees with the machine on everything except expansions.  The machine runs the copies that the
check made; here an expansion is a loop at run time, over the elements of its range, and the tree is the one that was
parsed.

A record is gone through in the order in which its type declares the fields, so a record value knows that order.  A
local record type is known from where it is declared until its scope ends; any other name is followed, through aliases,
to a record statement of the program.
-/
namespace Unroll
namespace Reference

/-- A value whose records know the order in which their fields were declared. -/
inductive Ordered
  | scalar (value : Value)
  | array (items : List Ordered)
  | record (name : String) (order : List String) (fields : List (String × Ordered))

namespace Ordered

mutual

/-- The value of the machine. -/
def erase : Ordered → Value
  | scalar v => v
  | array items => .array (eraseAll items)
  | record name _ fields => .record name (eraseFields fields)

def eraseAll : List Ordered → List Value
  | [] => []
  | v :: vs => erase v :: eraseAll vs

def eraseFields : List (String × Ordered) → List (String × Value)
  | [] => []
  | (n, v) :: fs => (n, erase v) :: eraseFields fs

end

def field? (v : Ordered) (name : String) : Option Ordered :=
  match v with
  | record _ _ fields => fields.lookup name
  | _ => none

theorem eraseAll_eq : ∀ vs : List Ordered, eraseAll vs = vs.map erase
  | [] => rfl
  | v :: vs => by rw [eraseAll, eraseAll_eq vs, List.map_cons]

theorem lookup_eraseFields (n : String) : ∀ fs : List (String × Ordered),
    (eraseFields fs).lookup n = (fs.lookup n).map erase
  | [] => rfl
  | (m, v) :: fs => by
    rw [eraseFields, List.lookup_cons, List.lookup_cons, lookup_eraseFields n fs]
    cases n == m <;> rfl

end Ordered

/-- How a statement ends. -/
inductive Flow
  | next
  | leave
  | again
  | give (value : Ordered)

def Flow.erase : Flow → Unroll.Flow
  | next => .next
  | leave => .leave
  | again => .again
  | give v => .give v.erase

/-- A scope holds values and the record types that are declared in it, each with the order of its fields. -/
structure Level where
  values : Table Ordered
  types : Table (List String)

structure State where
  /-- The scopes of the call that is running; innermost first. -/
  scopes : List Level
  out : String

abbrev Ref := EStateM Halt State

variable {α : Type}

/-! ## Steps -/

def fail (fault : Fault) (span : Span) : Ref α := throw (.error ⟨fault, span⟩)

/-- An operation of the machine that neither reads nor changes it. -/
def operation (x : Run α) : Ref α := fun s =>
  match x .new with
  | .ok a _ => .ok a s
  | .error h _ => .error h s

/-- Runs the action with other scopes and brings the old ones back. -/
def inside (enter leave : List Level → List Level) (x : Ref α) : Ref α := fun s =>
  match x { s with scopes := enter s.scopes } with
  | .ok a t => .ok a { t with scopes := leave t.scopes }
  | .error h t => .error h { t with scopes := leave t.scopes }

def inScope (x : Ref α) : Ref α := inside (⟨[], []⟩ :: ·) List.tail x

def inFrame (scope : Table Ordered) (x : Ref α) : Ref α := fun s =>
  inside (fun _ => [⟨scope, []⟩]) (fun _ => s.scopes) x s

def onScopes (f : List Level → List Level) : Ref Unit := modify fun s => { s with scopes := f s.scopes }

def define (name : String) (v : Ordered) : Ref Unit :=
  onScopes fun
    | [] => []
    | l :: outer => { l with values := l.values.insert name v } :: outer

def declare (name : String) (order : List String) : Ref Unit :=
  onScopes fun
    | [] => []
    | l :: outer => { l with types := l.types.insert name order } :: outer

def lookup (name : String) (span : Span) : Ref Ordered := do
  match (← get).scopes.findSome? (·.values.find? name) with
  | some v => return v
  | none => fail (.unboundName name) span

/-- The scopes with a new value for the innermost entry of the name; none where it has no entry. -/
def update? (name : String) (v : Ordered) : List Level → Option (List Level)
  | [] => none
  | l :: outer =>
    if l.values.contains name then some ({ l with values := l.values.set name v } :: outer)
    else (update? name v outer).map (l :: ·)

def assign (name : String) (v : Ordered) (span : Span) : Ref Unit := do
  match update? name v (← get).scopes with
  | some scopes => onScopes fun _ => scopes
  | none => fail (.unboundName name) span

def print (text : String) : Ref Unit := modify fun s => { s with out := s.out ++ text }

/-! ## Expressions -/

/-- What evaluation needs beyond the tree. -/
structure World where
  cells : Table CellDef
  /-- Calls a cell, one level down. -/
  call : CellDef → List Ordered → Span → Ref Ordered
  /-- How often one loop may go round. -/
  rounds : Nat
  /-- The order of the fields of a record whose name is known everywhere. -/
  order : String → List String

/-- The order of the fields of the record that a name stands for. -/
def orderOf (w : World) (name : String) : Ref (List String) := do
  match (← get).scopes.findSome? (·.types.find? name) with
  | some order => return order
  | none => return w.order name

def asBool (span : Span) (v : Ordered) : Ref Bool := operation (Eval.asBool span v.erase)

def asIndex (span : Span) (v : Ordered) : Ref Nat := operation (Eval.asIndex span v.erase)

def member (span : Span) (base : Ordered) (name : String) : Ref Ordered :=
  match base.field? name with
  | some v => return v
  | none => fail (.noField base.erase.kind name) span

def element (span indexSpan : Span) (base : Ordered) (index : Nat) : Ref Ordered :=
  match base with
  | .array items =>
    match items[index]? with
    | some v => return v
    | none => fail (.indexBounds index items.length) indexSpan
  | v => fail (.notIndexable v.erase.kind) span

def call (w : World) (span : Span) (name : String) (args : List Ordered) : Ref Ordered :=
  match name with
  | "print" => do
    print (String.join (args.map fun v => v.erase.display) ++ "\n")
    return .scalar .unit
  | "len" =>
    match args.head? with
    | some (.array items) => return .scalar (.int items.length)
    | _ => fail .lenArg span
  | _ =>
    match w.cells.find? name with
    | some c => w.call c args span
    | none => fail (.unknownCell name) span

mutual

def expr (w : World) : Expr → Ref Ordered
  | .name _ id => lookup id.name id.span
  | .int _ v => return .scalar (.int v)
  | .char _ c => return .scalar (.char c)
  | .bool _ b => return .scalar (.bool b)
  | .text _ s => return .scalar (.text s)
  | .list span _ => fail .strayList span
  | .array _ items => .array <$> exprs w items
  | .record _ type fs => do
    let vs ← fields w fs
    return .record type.name (← orderOf w type.name) vs
  | .unary span op e => do
    let v ← expr w e
    .scalar <$> operation (Eval.unary span op v.erase)
  | .binary _ l .and r => do
    if ← asBool l.span (← expr w l) then return .scalar (.bool (← asBool r.span (← expr w r)))
    else return .scalar (.bool false)
  | .binary _ l .or r => do
    if ← asBool l.span (← expr w l) then return .scalar (.bool true)
    else return .scalar (.bool (← asBool r.span (← expr w r)))
  | .binary span l op r => do
    let a ← expr w l
    let b ← expr w r
    .scalar <$> operation (Eval.binary span op a.erase b.erase)
  | .member _ base m => do member m.span (← expr w base) m.name
  | .index span base index => do
    let b ← expr w base
    let i ← asIndex index.span (← expr w index)
    element span index.span b i
  | .call span callee _ args => do call w span callee.name (← exprs w args)
  | .listSelect span (.list _ items) index => do
    let i ← asIndex index.span (← expr w index)
    nth w span i items i
  | .listSelect span _ _ => fail .selectionOf span
  | .memberSelect span base members index => do
    let i ← asIndex index.span (← expr w index)
    match members[i]? with
    | none => fail (.memberIndex i) span
    | some m =>
      match (← expr w base).field? m.name with
      | some v => return v
      | none => fail (.selectedField m.name) span

def exprs (w : World) : List Expr → Ref (List Ordered)
  | [] => return []
  | e :: es => do return (← expr w e) :: (← exprs w es)

def fields (w : World) : List (Ident × Expr) → Ref (List (String × Ordered))
  | [] => return []
  | (f, e) :: fs => do return (f.name, ← expr w e) :: (← fields w fs)

/-- Evaluates the one item that an index selects. -/
def nth (w : World) (span : Span) (index : Nat) : List Expr → Nat → Ref Ordered
  | e :: _, 0 => expr w e
  | _ :: es, n + 1 => nth w span index es n
  | [], _ => fail (.listIndex index) span

end

/-! ## Statements -/

def condition (w : World) (e : Expr) : Ref Bool := do asBool e.span (← expr w e)

/-- Goes round while the condition holds, so many times at most. -/
def rounds (condition : Ref Bool) (body : Ref Flow) : Nat → Ref Flow
  | 0 => throw .exhausted
  | n + 1 => do
    if ← condition then
      match ← body with
      | .leave => return .next
      | .give v => return .give v
      | .next | .again => rounds condition body n
    else return .next

/-- Runs the body for each element in order. -/
def each (body : α → Ref Flow) : List α → Ref Flow
  | [] => return .next
  | a :: as => do
    match ← body a with
    | .next | .again => each body as
    | .leave => return .next
    | .give v => return .give v

def init (w : World) : Option Init → Ref Unit
  | none => return ()
  | some (.val d) => do define d.name.name (← expr w d.expr)
  | some (.expr e) => do let _ ← expr w e

/-- One round of an expansion: the iteration variable is declared as what the element evaluates to. -/
def round (var : String) (element : Ref Ordered) (body : Ref Flow) : Ref Flow :=
  inScope do
    define var (← element)
    body

/-- The fields of a record in the given order. -/
def inOrder (span : Span) (v : Ordered) : List String → Ref (List Ordered)
  | [] => return []
  | n :: ns => do return (← member span v n) :: (← inOrder span v ns)

/-- What an expansion goes through: the items of an array, or the fields of a record as its type declares them. -/
def elements (span : Span) (v : Ordered) : Ref (List Ordered) :=
  match v with
  | .array items => return items
  | .record _ order _ => inOrder span v order
  | .scalar v => fail (.notIndexable v.kind) span

/-- **An expansion is a loop.**  The expressions of a brace list are evaluated one by one, each in the scope of its own
round; any other range is evaluated once, before the first round. -/
def loop (w : World) (var : String) (range : Expr) (body : Ref Flow) : Ref Flow :=
  match range with
  | .list _ items => each (fun e => round var (expr w e) body) items
  | range => do
    let vs ← elements range.span (← expr w range)
    each (fun v => round var (pure v) body) vs

mutual

def stmt (w : World) : Stmt → Ref Flow
  | .typeAlias _ _ _ _ | .trait _ _ | .cell _ => return .next
  | .record d => do
    declare d.name.name (d.fields.map (·.name.name))
    return .next
  | .val d => do
    define d.name.name (← expr w d.expr)
    return .next
  | .assign _ target e => do
    assign target.name (← expr w e) target.span
    return .next
  | .cond _ c yes none => do
    if ← condition w c then block w yes else return .next
  | .cond _ c yes (some no) => do
    if ← condition w c then block w yes else block w no
  | .loop _ c body => rounds (condition w c) (block w body) w.rounds
  | .expand x => inScope (expansion w x)
  | .leave _ => return .leave
  | .next _ => return .again
  | .give _ none => return .give (.scalar .unit)
  | .give _ (some e) => .give <$> expr w e
  | .assert _ e => do
    if ← condition w e then return .next else fail .assertionFailed e.span
  | .expr e => do
    let _ ← expr w e
    return .next

def stmts (w : World) : List Stmt → Ref Flow
  | [] => return .next
  | s :: ss => do
    match ← stmt w s with
    | .next => stmts w ss
    | flow => return flow

def block (w : World) : Block → Ref Flow
  | ⟨_, ss⟩ => inScope (stmts w ss)

def expansion (w : World) : Expansion → Ref Flow
  | ⟨_, _, first, var, range, ⟨_, body⟩, _, _⟩ => do
    init w first
    loop w var.name.name range (stmts w body)

end

/-- Runs the body of a cell in scopes of its own.  Falling off the end gives unit. -/
def cell (w : World) (c : CellDef) (args : List Ordered) : Ref Ordered :=
  inFrame ((c.args.map (·.name.name)).zip args).reverse do
    match ← stmts w c.body.stmts with
    | .give v => return v
    | _ => return .scalar .unit

/-- Calls a cell where so many more calls may be active at once. -/
def callAt (cells : Table CellDef) (order : String → List String) (limit loopRounds : Nat) :
    Nat → CellDef → List Ordered → Span → Ref Ordered
  | 0, _, _, span => fail (.callDepth limit) span
  | n + 1, c, args, _ => cell ⟨cells, callAt cells order limit loopRounds n, loopRounds, order⟩ c args

/-! ## Records by name -/

/-- The record statements of a parsed program. -/
def recordTable (p : Program) : Table RecordDef :=
  p.filterMap fun
    | .record d => some (d.name.name, d)
    | _ => none

/-- The alias statements of a parsed program: the parameters and the target of each. -/
def aliasTable (p : Program) : Table (List String × TypeRef) :=
  p.filterMap fun
    | .typeAlias _ id params target => some (id.name, params.map (·.name.name), target)
    | _ => none

/-- Where a written type leads that stands in the target of an alias: to a record statement, or to the parameter of that
position. -/
inductive Target
  | record (d : RecordDef)
  | param (position : Nat)

/-- The parameter that a written name stands for; arguments make it an alias. -/
def position? (params : List String) (name : String) : List TypeArg → Option Nat
  | [] => params.idxOf? name
  | _ :: _ => none

mutual

/-- Where a written type leads, if it leads to a record.  The parameters are those of the alias around it, and `follow`
says where each alias leads. -/
def target? (p : Program) (follow : String → Option Target) (params : List String) : TypeRef → Option Target
  | .array _ _ _ => none
  | .named _ id args =>
    match position? params id.name args with
    | some i => some (.param i)
    | none =>
      if (Ty.builtin? id.name).isSome then none
      else
        match (recordTable p).find? id.name with
        | some d => some (.record d)
        | none =>
          match follow id.name with
          | some (.param i) => argTarget? p follow params args i
          | found => found

/-- Where the argument at a position leads. -/
def argTarget? (p : Program) (follow : String → Option Target) (params : List String) :
    List TypeArg → Nat → Option Target
  | .type t :: _, 0 => target? p follow params t
  | _ :: as, i + 1 => argTarget? p follow params as i
  | _, _ => none

end

/-- Where an alias leads, through so many aliases at most. -/
def aliasTarget? (p : Program) : Nat → String → Option Target
  | 0, _ => none
  | n + 1, name =>
    match (aliasTable p).find? name with
    | some (params, target) => target? p (aliasTarget? p n) params target
    | none => none

/-- **The order in which a record declares its fields**: that of the record statement which has the name, or else of the
one to which the alias leads that has it.  As many aliases are followed as there are statements, which is enough. -/
def declaredOrder (p : Program) (name : String) : List String :=
  match (recordTable p).find? name with
  | some d => d.fields.map (·.name.name)
  | none =>
    match aliasTarget? p p.length name with
    | some (.record d) => d.fields.map (·.name.name)
    | _ => []

/-! ## Programs -/

/-- The cells of a parsed program by name; of two with one name the later one counts. -/
def cellTable (p : Program) : Table CellDef :=
  (p.filterMap fun
    | .cell c => some (c.name.name, c)
    | _ => none).reverse

/-- Runs a cell without parameters. -/
def run (p : Program) (b : Bounds) (entry : String) : Except Halt Outcome :=
  match (cellTable p).find? entry with
  | none => .error (.error ⟨.noEntry entry, ⟨0, 0⟩⟩)
  | some c =>
    if !c.args.isEmpty then .error (.error ⟨.entryParams entry, c.name.span⟩)
    else
      match callAt (cellTable p) (declaredOrder p) b.callDepth b.loopRounds b.callDepth c [] c.name.span ⟨[], ""⟩ with
      | .ok v s => .ok ⟨v.erase, s.out⟩
      | .error h _ => .error h

end Reference

end Unroll

import Unroll.Diagnostic
/-! # Substitution

Replaces the parameters of bound levels by their arguments, in the tree.  A type argument goes back
into the tree as it would be written, a value as a literal.  A selection whose index became a
literal collapses to what it selects.  Expansions are reset, because what they were unrolled from
has changed; the depth of each stays as it is.

Nothing is renamed: names are resolved again where the result stands.
-/
namespace Unroll.Subst

abbrev Result := Except Diagnostic

def literal? : Expr → Option Int
  | .int _ v => some v
  | _ => none

/-- The item with the given index, where the index is not negative and not too large. -/
def item? {α : Type} (items : List α) (index : Int) : Option α :=
  if 0 ≤ index then items[index.toNat]? else none

def foldListSelect (span : Span) (list index : Expr) : Result Expr :=
  match literal? index, list with
  | some i, .list _ items =>
    match item? items i with
    | some e => .ok e
    | none => .error (.of (.selectionRange i .listElements items.length) index.span)
  | _, _ => .ok (.listSelect span list index)

def foldMemberSelect (span : Span) (base : Expr) (members : List Ident) (index : Expr) :
    Result Expr :=
  match literal? index with
  | some i =>
    match item? members i with
    | some m => .ok (.member span base m)
    | none => .error (.of (.selectionRange i .recordElements members.length) index.span)
  | none => .ok (.memberSelect span base members index)

/-- A name that stands as an expression. -/
def name (ls : ArgLevels) (span : Span) (id : Ident) : Result Expr :=
  match ls.lookup? id.name with
  | some (.value v) => .ok (.int span v)
  | some (.type _) => .error (.of (.typeParamAsValue id.name) span)
  | none => .ok (.name span id)

/-- A name that stands as a type. -/
def typeName (ls : ArgLevels) (span : Span) (id : Ident) : Result TypeRef :=
  match ls.lookup? id.name with
  | some (.type t) =>
    match t.toTypeRef? span with
    | some r => .ok r
    | none => .error (.of (.notSubstitutable t id.name) span)
  | some (.value _) => .error (.of (.valueParamAsType id.name) span)
  | none => .ok (.named span id [])

/-- The type of a record literal can stand for a parameter only where the argument is a record. -/
def recordName (ls : ArgLevels) (id : Ident) : Ident :=
  match ls.lookup? id.name with
  | some (.type (.record canonical)) => ⟨canonical, id.span⟩
  | _ => id

mutual

def expr (ls : ArgLevels) : Expr → Result Expr
  | .name span id => name ls span id
  | .int span v => .ok (.int span v)
  | .char span c => .ok (.char span c)
  | .bool span b => .ok (.bool span b)
  | .text span s => .ok (.text span s)
  | .list span items => do return .list span (← exprs ls items)
  | .array span items => do return .array span (← exprs ls items)
  | .record span type fs => do return .record span (recordName ls type) (← fields ls fs)
  | .unary span op e => do return .unary span op (← expr ls e)
  | .binary span l op r => do return .binary span (← expr ls l) op (← expr ls r)
  | .member span base member => do return .member span (← expr ls base) member
  | .index span base index => do return .index span (← expr ls base) (← expr ls index)
  | .call span callee generic args => do
    return .call span callee (← typeArgs ls generic) (← exprs ls args)
  | .listSelect span list index => do foldListSelect span (← expr ls list) (← expr ls index)
  | .memberSelect span base members index => do
    foldMemberSelect span (← expr ls base) members (← expr ls index)

def exprs (ls : ArgLevels) : List Expr → Result (List Expr)
  | [] => .ok []
  | e :: es => do return (← expr ls e) :: (← exprs ls es)

def fields (ls : ArgLevels) : List (Ident × Expr) → Result (List (Ident × Expr))
  | [] => .ok []
  | (f, e) :: fs => do return (f, ← expr ls e) :: (← fields ls fs)

def typeRef (ls : ArgLevels) : TypeRef → Result TypeRef
  | .named span id [] => typeName ls span id
  | .named span id (a :: as) => do return .named span id (← typeArgs ls (a :: as))
  | .array span elem len => do return .array span (← typeRef ls elem) (← expr ls len)

/-- A bare name reads as a type, but may stand for a value. -/
def typeArg (ls : ArgLevels) : TypeArg → Result TypeArg
  | .type (.named span id []) =>
    match ls.lookup? id.name with
    | some (.value v) => .ok (.value (.int span v))
    | _ => .type <$> typeName ls span id
  | .type t => .type <$> typeRef ls t
  | .value e => .value <$> expr ls e

def typeArgs (ls : ArgLevels) : List TypeArg → Result (List TypeArg)
  | [] => .ok []
  | a :: as => do return (← typeArg ls a) :: (← typeArgs ls as)

end

/-! ## Statements -/

def typeRef? (ls : ArgLevels) : Option TypeRef → Result (Option TypeRef)
  | none => .ok none
  | some t => some <$> typeRef ls t

def expr? (ls : ArgLevels) : Option Expr → Result (Option Expr)
  | none => .ok none
  | some e => some <$> expr ls e

def recordField (ls : ArgLevels) (f : RecordField) : Result RecordField := do
  return { f with type := ← typeRef ls f.type }

def param (ls : ArgLevels) (p : Param) : Result Param := do
  return { p with type := ← typeRef ls p.type }

def valDecl (ls : ArgLevels) (d : ValDecl) : Result ValDecl := do
  return { d with type := ← typeRef? ls d.type, expr := ← expr ls d.expr }

def loopVar (ls : ArgLevels) (v : LoopVar) : Result LoopVar := do
  return { v with type := ← typeRef? ls v.type }

def init (ls : ArgLevels) : Option Init → Result (Option Init)
  | none => .ok none
  | some (.val d) => some <$> .val <$> valDecl ls d
  | some (.expr e) => some <$> .expr <$> expr ls e

mutual

/-- Declarations that belong to the top level are left as they are, for the checker to reject. -/
def stmt (ls : ArgLevels) : Stmt → Result Stmt
  | .typeAlias span id params target => .ok (.typeAlias span id params target)
  | .trait span id => .ok (.trait span id)
  | .cell c => .ok (.cell c)
  | .record d => do return .record { d with fields := ← d.fields.mapM (recordField ls) }
  | .val d => .val <$> valDecl ls d
  | .assign span target e => do return .assign span target (← expr ls e)
  | .cond span c yes none => do return .cond span (← expr ls c) (← block ls yes) none
  | .cond span c yes (some no) => do
    return .cond span (← expr ls c) (← block ls yes) (some (← block ls no))
  | .loop span c body => do return .loop span (← expr ls c) (← block ls body)
  | .expand x => .expand <$> expansion ls x
  | .leave span => .ok (.leave span)
  | .next span => .ok (.next span)
  | .give span e => do return .give span (← expr? ls e)
  | .assert span e => do return .assert span (← expr ls e)
  | .expr e => .expr <$> expr ls e

def stmts (ls : ArgLevels) : List Stmt → Result (List Stmt)
  | [] => .ok []
  | s :: ss => do return (← stmt ls s) :: (← stmts ls ss)

def block (ls : ArgLevels) : Block → Result Block
  | ⟨span, ss⟩ => do return ⟨span, ← stmts ls ss⟩

def expansion (ls : ArgLevels) : Expansion → Result Expansion
  | ⟨span, keyword, first, var, range, body, depth, _⟩ => do
    return ⟨span, keyword, ← init ls first, ← loopVar ls var, ← expr ls range, ← block ls body,
      depth, .pending⟩

end

/-- The instance of a generic cell under the given name; it has no parameters left. -/
def cell (ls : ArgLevels) (c : CellDef) (instanceName : String) : Result CellDef := do
  return { c with
    name := ⟨instanceName, c.name.span⟩
    params := []
    args := ← c.args.mapM (param ls)
    ret := ← typeRef? ls c.ret
    body := ← block ls c.body }

end Unroll.Subst

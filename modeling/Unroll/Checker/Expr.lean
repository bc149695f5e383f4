import Unroll.Checker.Cell
/-! # Expressions

An expression is checked into its elaborated form, in which calls of generic cells name their
instances and selections with a known index have collapsed, together with its type.  Where a type is
not known yet, checks that need it are left out; they are made up for when the enclosing template is
instantiated.
-/
namespace Unroll.Check

open CheckM

abbrev Typed := Expr × Ty

/-- Cells that need no declaration. -/
def isBuiltin (name : String) : Bool := name == "print" || name == "len"

def nameExpr (span : Span) (id : Ident) : CheckM Typed := do
  let s ← get
  match s.place.val? id.name with
  | some v => return (.name span id, v.type)
  | none =>
    match s.place.param? id.name with
    | some ⟨_, .const⟩ => return (.name span id, .int)
    | some ⟨_, .type _⟩ => fail (.typeParamAsValue id.name) span
    | none =>
      if s.cells.contains id.name || s.generics.contains id.name then
        fail (.cellAsValue id.name) span
      else fail (.unknownName id.name) span

/-! ## Operators -/

def unaryType (span : Span) (op : UnaryOp) (t : Ty) : CheckM Ty :=
  if t.isUnknown then return t
  else match op, t with
    | .neg, .int => return .int
    | .not, .bool => return .bool
    | .neg, t => fail (.negation t) span
    | .not, t => fail (.complement t) span

def hasEquality : Ty → Bool
  | .int | .bool | .char | .text => true
  | _ => false

/-- The type of an operator's result where both operand types are known. -/
def knownBinaryType? (op : BinOp) (l r : Ty) : Option Ty :=
  match op, l, r with
  | .add, .text, .text => some .text
  | .add, .int, .int | .sub, .int, .int | .mul, .int, .int | .div, .int, .int
  | .rem, .int, .int => some .int
  | .eq, l, r | .ne, l, r => if l = r ∧ hasEquality l then some .bool else none
  | .lt, .int, .int | .gt, .int, .int | .le, .int, .int | .ge, .int, .int => some .bool
  | .lt, .char, .char | .gt, .char, .char | .le, .char, .char | .ge, .char, .char => some .bool
  | .and, .bool, .bool | .or, .bool, .bool => some .bool
  | _, _, _ => none

/-- The type of an operator's result where an operand type is not known. -/
def unknownBinaryType : BinOp → Ty
  | .add | .sub | .mul | .div | .rem => .dependent
  | _ => .bool

def binaryType (span : Span) (op : BinOp) (l r : Ty) : CheckM Ty :=
  if l.isUnknown || r.isUnknown then return unknownBinaryType op
  else match knownBinaryType? op l r with
    | some t => return t
    | none => fail (.operator op l r) span

/-! ## Members and elements -/

def memberType (base : Expr) (type : Ty) (member : Ident) : CheckM Ty := do
  if type.isUnknown then return type
  match type with
  | .record _ =>
    match (← get).record? type with
    | none => fail (.unknownRecord type) base.span
    | some r =>
      match r.field? member.name with
      | none => fail (.noField type member.name) member.span
      | some f =>
        if f.hidden then fail (.fieldHidden member.name type) member.span else return f.type
  | t => fail (.noFieldInType t member.name) member.span

def memberAccess (base : Expr) (type : Ty) (member : Ident) : CheckM Typed := do
  return (.member (base.span.join member.span) base member, ← memberType base type member)

/-- An index that is constant has to be within a length that is known. -/
def checkBounds (index : Expr) (place : Span) (length : Option Nat) : CheckM Unit := do
  match length, Const.eval (← CheckM.place).constant? index with
  | some n, .ok (.int k) => if k < 0 ∨ n ≤ k then fail (.indexBounds k n) place
  | _, _ => return ()

def elementAccess (span baseSpan indexSpan : Span) (base index : Typed) : CheckM Typed := do
  let (b, bt) := base
  let (i, it) := index
  if it ≠ .int ∧ !it.isUnknown then fail (.indexType it) indexSpan
  match bt with
  | .array elem len =>
    checkBounds i indexSpan len
    return (.index span b i, elem)
  | t =>
    if t.isUnknown then return (.index span b i, .dependent) else fail (.notIndexable t) baseSpan

/-- The element type of an array so far: the first type that is known. -/
def elementType (sofar : Option Ty) (t : Ty) (span : Span) : CheckM Ty :=
  match sofar with
  | none => return t
  | some first =>
    if first.isUnknown then return t
    else if t.isUnknown || first = t then return first
    else fail (.elementMismatch first t) span

/-! ## Calls -/

/-- Builtins take one argument, and that is looked at before the argument itself. -/
def checkBuiltinArity (span : Span) (callee : Ident) (count : Nat) : CheckM Unit :=
  if isBuiltin callee.name && count != 1 then fail (.builtinArity callee.name count) span
  else return ()

/-- The result type of a builtin: anything can be printed, and arrays have lengths. -/
def builtinType (name : String) (arg : Ty) (place : Span) : CheckM Ty :=
  if name = "len" then
    match arg with
    | .array _ _ => return .int
    | t => if t.isUnknown then return .int else fail (.lenArg t) place
  else return .unit

def builtinCall (span : Span) (callee : Ident) (args : List Expr) (types : List Ty)
    (places : List Span) : CheckM Typed := do
  match types, places with
  | [t], [place] => return (.call span callee [] args, ← builtinType callee.name t place)
  | _, _ => fail (.builtinArity callee.name args.length) span

def checkParams : List CellParam → List Span → List Ty → CheckM Unit
  | p :: ps, s :: ss, t :: ts => do
    checkAssignable p.type t s
    checkParams ps ss ts
  | _, _, _ => return ()

def checkCall (name : String) (sig : CellSig) (places : List Span) (types : List Ty)
    (span : Span) : CheckM Unit :=
  if places.length ≠ sig.params.length then
    fail (.callArity name sig.params.length places.length) span
  else checkParams sig.params places types

/-- A call whose arguments have been checked.  A generic call is left as it is while its arguments
or their types are dependent. -/
def cellCall (deeper : Deeper) (span : Span) (callee : Ident) (generic : List TypeArg)
    (args : List Expr) (types : List Ty) (places : List Span) : CheckM Typed := do
  match (← get).cells.find? callee.name with
  | some sig =>
    if !generic.isEmpty then fail (.notGeneric callee.name) callee.span
    checkCall callee.name sig places types span
    return (.call span callee [] args, sig.ret)
  | none =>
    match (← get).generics.find? callee.name with
    | none => fail (.unknownCell callee.name) callee.span
    | some g =>
      let given ← templateArgs deeper callee.name g.params generic
      match given, types.any Ty.isUnknown with
      | some given, false =>
        let full ← ofExcept (deduce (← get) callee given types)
        let (name, sig) ← instantiateCell deeper callee full
        checkCall name sig places types span
        return (.call span ⟨name, callee.span⟩ [] args, sig.ret)
      | _, _ => return (.call span callee generic args, .dependent)

/-! ## Record literals -/

/-- The record that a literal names; none where it names a type that is not known. -/
def literalRecord (deeper : Deeper) (id : Ident) : CheckM (Ty × Option RecordInfo) := do
  let t ← typeRef deeper (.named id.span id [])
  if t.isUnknown then return (t, none)
  match (← get).record? t with
  | some r => return (t, some r)
  | none => fail (.notRecord id.name) id.span

/-- The field that an entry of a literal sets; none where the record is not known. -/
def literalField (type : Ty) (record : Option RecordInfo) (seen : List String) (id : Ident) :
    CheckM (Option FieldInfo) :=
  match record with
  | none => return none
  | some r =>
    match r.field? id.name with
    | none => fail (.noField type id.name) id.span
    | some f => if seen.contains id.name then fail (.fieldRepeated id.name) id.span else return f

def checkComplete (span : Span) (type : Ty) (record : Option RecordInfo) (seen : List String) :
    CheckM Unit :=
  match record.bind fun r => r.fields.find? fun f => !seen.contains f.name with
  | some missing => fail (.fieldMissing missing.name type) span
  | none => return ()

mutual

def expr (deeper : Deeper) : Expr → CheckM Typed
  | .name span id => nameExpr span id
  | .int span v => return (.int span v, .int)
  | .char span c => return (.char span c, .char)
  | .bool span b => return (.bool span b, .bool)
  | .text span s => return (.text span s, .text)
  | .list span _ => fail .strayList span
  | .array span items => do
    if items.isEmpty then fail .emptyArray span
    let (es, elem) ← elements deeper none items
    return (.array span es, .array elem es.length)
  | .record span type fs => do
    let (t, record) ← literalRecord deeper type
    let es ← fields deeper t record [] fs
    checkComplete span t record (fs.map (·.1.name))
    return (.record span type es, t)
  | .unary span op e => do
    let (e, t) ← expr deeper e
    return (.unary span op e, ← unaryType span op t)
  | .binary span l op r => do
    let (l, lt) ← expr deeper l
    let (r, rt) ← expr deeper r
    return (.binary span l op r, ← binaryType span op lt rt)
  | .member _ base member => do
    let (b, t) ← expr deeper base
    memberAccess b t member
  | .index span base index => do
    let b ← expr deeper base
    let i ← expr deeper index
    elementAccess span base.span index.span b i
  | .call span callee generic args => do
    checkBuiltinArity span callee args.length
    let (es, ts) ← exprs deeper args
    let places := args.map Expr.span
    if isBuiltin callee.name then builtinCall span callee es ts places
    else cellCall deeper span callee generic es ts places
  | .listSelect span (.list listSpan items) index => do
    match ← constIndex index with
    | some i => nth deeper index.span items.length i items i
    | none =>
      let (es, _) ← exprs deeper items
      return (.listSelect span (.list listSpan es) index, .dependent)
  | .listSelect _ list _ => fail .selectionOf list.span
  | .memberSelect span base members index => do
    let (b, t) ← expr deeper base
    match ← constIndex index with
    | some i =>
      match members[i]? with
      | some m => memberAccess b t m
      | none => fail (.selectionRange i .recordMembers members.length) index.span
    | none => return (.memberSelect span b members index, .dependent)

def exprs (deeper : Deeper) : List Expr → CheckM (List Expr × List Ty)
  | [] => return ([], [])
  | e :: es => do
    let (e, t) ← expr deeper e
    let (es, ts) ← exprs deeper es
    return (e :: es, t :: ts)

/-- The elements of an array, and the type of the whole run. -/
def elements (deeper : Deeper) (sofar : Option Ty) : List Expr → CheckM (List Expr × Ty)
  | [] => return ([], sofar.getD .dependent)
  | item :: items => do
    let (e, t) ← expr deeper item
    let elem ← elementType sofar t item.span
    let (es, elem) ← elements deeper (some elem) items
    return (e :: es, elem)

def fields (deeper : Deeper) (type : Ty) (record : Option RecordInfo) (seen : List String) :
    List (Ident × Expr) → CheckM (List (Ident × Expr))
  | [] => return []
  | (f, e) :: fs => do
    let info ← literalField type record seen f
    let (checked, t) ← expr deeper e
    if let some info := info then checkAssignable info.type t e.span
    return (f, checked) :: (← fields deeper type record (f.name :: seen) fs)

/-- Checks the one item that an index selects. -/
def nth (deeper : Deeper) (place : Span) (count index : Nat) :
    List Expr → Nat → CheckM Typed
  | e :: _, 0 => expr deeper e
  | _ :: es, n + 1 => nth deeper place count index es n
  | [], _ => fail (.selectionRange index .listElements count) place

end

/-- A brace list is no expression: only a walk takes one. -/
theorem expr_list (deeper : Deeper) (span : Span) (items : List Expr) :
    expr deeper (.list span items) = fail .strayList span := by
  rw [expr]

/-- A brace list, which is checked element by element. -/
def listExpr (deeper : Deeper) (items : List Expr) (span : Span) : CheckM Typed := do
  let (es, ts) ← exprs deeper items
  return (.list span es, .list ts)

/-- The range of an expansion: the one place for a brace list. -/
def rangeExpr (deeper : Deeper) : Expr → CheckM Typed
  | .list span items => listExpr deeper items span
  | e => expr deeper e

end Unroll.Check

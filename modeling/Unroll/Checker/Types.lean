import Unroll.Checker.State
import Unroll.Template.Subst
/-! # Written types

What a written type means in the current place, and what its template arguments are.

An alias with parameters is resolved by substituting into its target, and the result is no part of
the type it stands in.  So is what instantiating a cell or copying a body leads to: each of these
goes down one level, through a `Deeper`, and every level down is paid for by a frame on the bounded
stack of instantiations, or by a template that is checked for the first time.
-/
namespace Unroll.Check

open CheckM

/-- The checker one level down: for trees that come from substitution. -/
structure Deeper where
  typeRef : TypeRef → CheckM Ty
  stmt : Stmt → CheckM Stmt

/-- What a type name stands for, before its template arguments are looked at. -/
inductive Meaning
  | plain (what : Plain) (type : Ty)
  | generic (params : ParamLevel)

def meaning (id : Ident) : CheckM Meaning := do
  let s ← get
  match Ty.builtin? id.name with
  | some t => return .plain .builtin t
  | none =>
    match s.place.param? id.name with
    | some ⟨_, .type _⟩ => return .plain .typeParam (.param id.name)
    | some ⟨_, .const⟩ => fail (.valueParamAsType id.name) id.span
    | none =>
      match s.recordName? id.name with
      | some canonical => return .plain .record (.record canonical)
      | none =>
        match s.aliases.find? id.name with
        | some (.plain t) => return .plain .typeAlias t
        | some (.generic params _) => return .generic params
        | none =>
          if s.traits.contains id.name then fail (.traitAsType id.name) id.span
          else fail (.unknownType id.name) id.span

/-! ## Template arguments -/

def typeSatisfies (t : Ty) (trait : String) : Bool :=
  match trait, t with
  | "Numeric", .int | "Numeric", .char => true
  | "Scalar", .int | "Scalar", .bool | "Scalar", .char | "Scalar", .text => true
  | "Eq", .int | "Eq", .bool | "Eq", .char | "Eq", .text => true
  | _, _ => false

/-- Traits are closed: a type satisfies a trait by what it is, and the trait has to be declared. -/
def isSatisfied (s : Checker) (bound : String) (t : Ty) : Bool :=
  s.traits.contains bound && typeSatisfies t bound

def checkArg (s : Checker) (span : Span) (p : ParamDecl) (a : TemplateArg) :
    Except Diagnostic Unit :=
  match p.sort, a with
  | .type (some b), .type t =>
    if isSatisfied s b t then .ok () else .error (.of (.boundUnmet t b) span)
  | .type none, .type _ => .ok ()
  | .const, .value _ => .ok ()
  | .type _, .value v => .error (.of (.paramTakesType p.name v) span)
  | .const, .type t => .error (.of (.paramTakesConst p.name t) span)

/-- The parameters of the template of the given kind and name. -/
def templateParams (s : Checker) (kind : TemplateKind) (id : Ident) :
    Except Diagnostic ParamLevel :=
  match kind with
  | .typeAlias =>
    match s.aliases.find? id.name with
    | some (.generic params _) => .ok params
    | _ => .error (.of (.unknownTemplate .typeAlias id.name) id.span)
  | .cell =>
    match s.generics.find? id.name with
    | some g => .ok g.params
    | none => .error (.of (.unknownTemplate .cell id.name) id.span)
  | .variable_ | .predicate => .error (.of (.noTemplate kind id.name) id.span)

def checkArgs (s : Checker) (kind : TemplateKind) (id : Ident) (args : List TemplateArg) :
    Except Diagnostic Unit := do
  let level ← templateParams s kind id
  if args.length ≠ level.params.length then
    .error (.of (.templateArity id.name level.params.length args.length) id.span)
  else (level.params.zip args).forM fun (p, a) => checkArg s id.span p a

/-- Substitutes into an alias and resolves the result. -/
def instantiateAlias (deeper : Deeper) (id : Ident) (args : List TemplateArg) : CheckM Ty := do
  let s ← get
  ofExcept (checkArgs s .typeAlias id args)
  match s.aliases.find? id.name with
  | some (.generic params target) =>
    within ⟨.typeAlias (mangle id.name args), id.span⟩ do
      deeper.typeRef (← ofExcept (Subst.typeRef (ArgLevels.bind [] params.names args) target))
  | _ => fail (.unknownTemplate .typeAlias id.name) id.span

def length (elem : Ty) (len : Expr) : CheckM Ty := do
  match ← const len with
  | .int n => if 0 ≤ n then return .array elem (some n.toNat) else fail .lengthNegative len.span
  | .dependent => return .array elem none
  | .bool _ => fail .lengthNotInt len.span

/-- A value argument; none while it is dependent. -/
def valueArg (p : ParamDecl) (e : Expr) : CheckM (Option TemplateArg) := do
  match ← const e with
  | .int v => return some (.value v)
  | .dependent => return none
  | .bool _ => fail (.intArgExpected p.name) e.span

def typeArgOf (t : Ty) : Option TemplateArg := if t.isUnknown then none else some (.type t)

/-- All of the arguments, unless one of them is still dependent. -/
def allKnown : List (Option TemplateArg) → Option (List TemplateArg)
  | [] => some []
  | none :: _ => none
  | some a :: as => (allKnown as).map (a :: ·)

/-- Too many written arguments are reported at the first one too many. -/
def checkArgCount (owner : String) (params : ParamLevel) (args : List TypeArg) : CheckM Unit :=
  match args[params.params.length]? with
  | some a => fail (.tooManyArgs owner params.params.length args.length) a.span
  | none => return ()

mutual

def typeRef (deeper : Deeper) : TypeRef → CheckM Ty
  | .array _ elem len => do length (← typeRef deeper elem) len
  | .named _ id args => do
    match ← meaning id with
    | .plain what t =>
      if args.isEmpty then return t else fail (.takesNoArgs what id.name) id.span
    | .generic params =>
      if args.length ≠ params.params.length then
        fail (.aliasArity id.name params.params.length args.length) id.span
      else
        match allKnown (← argsFor deeper params.params args) with
        | some resolved => instantiateAlias deeper id resolved
        | none => return .dependent

/-- Resolves written arguments against the parameters, from the first on.  A missing entry is an
argument that is still dependent. -/
def argsFor (deeper : Deeper) : List ParamDecl → List TypeArg → CheckM (List (Option TemplateArg))
  | p :: ps, a :: as => do return (← argFor deeper p a) :: (← argsFor deeper ps as)
  | _, _ => return []

def argFor (deeper : Deeper) (p : ParamDecl) : TypeArg → CheckM (Option TemplateArg)
  | .value e =>
    match p.sort with
    | .type _ => fail (.typeArgExpected p.name) e.span
    | .const => valueArg p e
  | .type t =>
    match p.sort, t with
    | .type _, t => do return typeArgOf (← typeRef deeper t)
    | .const, .named span id [] => valueArg p (.name span ⟨id.name, span⟩)
    | .const, t => fail (.constArgExpected p.name) t.span

end

/-- The written arguments; none where one of them is still dependent.  There may be fewer than
parameters. -/
def templateArgs (deeper : Deeper) (owner : String) (params : ParamLevel) (args : List TypeArg) :
    CheckM (Option (List TemplateArg)) := do
  checkArgCount owner params args
  return allKnown (← argsFor deeper params.params args)

/-! ## Declared names -/

/-- Declares a value in the innermost scope. -/
def defineVal (id : Ident) (type : Ty) (mutable : Bool) : CheckM Unit := do
  let p ← place
  if (p.param? id.name).isSome then fail (.shadowsParam id.name) id.span
  match p.values with
  | [] => fail .noScope id.span
  | scope :: outer =>
    if scope.contains id.name then fail (.valDefinedHere id.name) id.span
    else onPlace fun p =>
      { p with values := scope.insert id.name ⟨type, mutable⟩ :: outer }.recordLocal id.name

/-- The fields of a record; no two have one name. -/
def recordFields (deeper : Deeper) (record : Ident) (seen : List String) :
    List RecordField → CheckM (List FieldInfo)
  | [] => return []
  | f :: fs => do
    if seen.contains f.name.name then fail (.duplicateField f.name.name record.name) f.name.span
    let t ← typeRef deeper f.type
    return ⟨f.name.name, t, f.hidden⟩ ::
      (← recordFields deeper record (f.name.name :: seen) fs)

/-- Declares a record in the innermost scope, under a name of its own. -/
def defineRecord (deeper : Deeper) (id : Ident) (fields : List RecordField) : CheckM Ty := do
  let p ← place
  if (p.param? id.name).isSome then fail (.shadowsParam id.name) id.span
  if (p.types.headD []).contains id.name then fail (.typeDefinedHere id.name) id.span
  let resolved ← recordFields deeper id [] fields
  modify fun s => { s with recordCount := s.recordCount + 1 }
  let canonical := id.name ++ "'" ++ toString (← get).recordCount
  modify (·.addRecord canonical resolved)
  onPlace fun p =>
    { p with types := match p.types with
      | [] => []
      | scope :: outer => scope.insert id.name canonical :: outer }.recordLocal id.name
  modify (·.addEvent ⟨.record, id.name, some (.record canonical), id.span, none⟩)
  return .record canonical

def paramDecls (s : Checker) (seen : List String) :
    List TemplateParam → Except Diagnostic (List ParamDecl)
  | [] => .ok []
  | p :: ps => do
    if seen.contains p.name.name then .error (.of (.duplicateParam p.name.name) p.name.span)
    let sort ← match p.kind with
      | .type (some b) =>
        if s.traits.contains b.name then .ok (.type (some b.name))
        else .error (.of (.unknownTrait b.name) b.span)
      | .type none => .ok (.type none)
      | .const (.named _ ⟨"int", _⟩ []) => .ok .const
      | .const t => .error (.of .constParamType t.span)
    return ⟨p.name.name, sort⟩ :: (← paramDecls s (p.name.name :: seen) ps)

def checkAssignable (expected actual : Ty) (span : Span) : CheckM Unit :=
  if expected.isUnknown || actual.isUnknown || expected = actual then return ()
  else fail (.mismatch expected actual) span

/-- The signature of a cell, as its parameters and result are written. -/
def signature (deeper : Deeper) (c : CellDef) : CheckM CellSig := do
  let params ← c.args.mapM fun p => do
    return (⟨p.name.name, ← typeRef deeper p.type, p.mutable⟩ : CellParam)
  match c.ret with
  | some t => return ⟨params, ← typeRef deeper t⟩
  | none => return ⟨params, .unit⟩

end Unroll.Check

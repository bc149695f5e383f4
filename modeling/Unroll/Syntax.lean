import Unroll.Span
/-! # The tree of a program

Every node carries the span it was read from; nodes that later stages make up carry the span of what
they stand for.  Expressions, written types and written template arguments refer to one another, so
they are one family; statements form a second one on top of it.

Two forms of expression have no spelling.  A selection of an element of a list, or of a member of a
record, comes into being while an expansion is unrolled, and disappears again as soon as its index
is a literal.
-/
namespace Unroll

inductive UnaryOp
  | neg
  | not
deriving DecidableEq, Repr, Inhabited

inductive BinOp
  | add | sub | mul | div | rem
  | eq | ne | lt | gt | le | ge
  | and | or
deriving DecidableEq, Repr, Inhabited

def UnaryOp.spelling : UnaryOp → String
  | neg => "-"
  | not => "!"

def BinOp.spelling : BinOp → String
  | add => "+"
  | sub => "-"
  | mul => "*"
  | div => "/"
  | rem => "%"
  | eq => "=="
  | ne => "!="
  | lt => "<"
  | gt => ">"
  | le => "<="
  | ge => ">="
  | and => "&&"
  | or => "||"

mutual

inductive Expr
  | name (span : Span) (id : Ident)
  | int (span : Span) (value : Int)
  | char (span : Span) (value : Char)
  | bool (span : Span) (value : Bool)
  | text (span : Span) (value : String)
  /-- Elements of any types, between braces. -/
  | list (span : Span) (items : List Expr)
  /-- Elements of one type, between brackets. -/
  | array (span : Span) (items : List Expr)
  | record (span : Span) (type : Ident) (fields : List (Ident × Expr))
  | unary (span : Span) (op : UnaryOp) (operand : Expr)
  | binary (span : Span) (left : Expr) (op : BinOp) (right : Expr)
  | member (span : Span) (base : Expr) (member : Ident)
  | index (span : Span) (base index : Expr)
  | call (span : Span) (callee : Ident) (generic : List TypeArg) (args : List Expr)
  /-- The element of a brace list with the given index. -/
  | listSelect (span : Span) (list index : Expr)
  /-- The member of `base` whose name has the given index among `members`. -/
  | memberSelect (span : Span) (base : Expr) (members : List Ident) (index : Expr)

/-- A type as written. -/
inductive TypeRef
  | named (span : Span) (name : Ident) (args : List TypeArg)
  | array (span : Span) (elem : TypeRef) (len : Expr)

/-- A template argument as written. -/
inductive TypeArg
  | type (type : TypeRef)
  | value (expr : Expr)

end

namespace Expr

def span : Expr → Span
  | name s _ | int s _ | char s _ | bool s _ | text s _ | list s _ | array s _ | record s _ _
  | unary s _ _ | binary s _ _ _ | member s _ _ | index s _ _ | call s _ _ _
  | listSelect s _ _ | memberSelect s _ _ _ => s

/-- A name that stands as an expression, at its own place. -/
def ofIdent (id : Ident) : Expr := .name id.span id

end Expr

namespace TypeRef

def span : TypeRef → Span
  | named s _ _ | array s _ _ => s

/-- A bare type name. -/
def bare (span : Span) (name : String) : TypeRef := .named span ⟨name, span⟩ []

end TypeRef

def TypeArg.span : TypeArg → Span
  | type t => t.span
  | value e => e.span

/-- What a template parameter ranges over. -/
inductive ParamKind
  | type (bound : Option Ident)
  | const (type : TypeRef)

structure TemplateParam where
  span : Span
  name : Ident
  kind : ParamKind

structure RecordField where
  span : Span
  name : Ident
  type : TypeRef
  /-- A private field can be set in a record literal and reached in no other way. -/
  hidden : Bool

structure RecordDef where
  span : Span
  name : Ident
  fields : List RecordField

structure Param where
  span : Span
  name : Ident
  mutable : Bool
  type : TypeRef

structure ValDecl where
  span : Span
  name : Ident
  mutable : Bool
  type : Option TypeRef
  expr : Expr

/-- The variable that an expansion binds in each copy of its body. -/
structure LoopVar where
  span : Span
  name : Ident
  mutable : Bool
  type : Option TypeRef

/-- What an expansion runs once before its copies. -/
inductive Init
  | val (decl : ValDecl)
  | expr (expr : Expr)

mutual

inductive Stmt
  | typeAlias (span : Span) (name : Ident) (params : List TemplateParam) (target : TypeRef)
  | trait (span : Span) (name : Ident)
  | record (decl : RecordDef)
  | cell (cell : CellDef)
  | val (decl : ValDecl)
  | assign (span : Span) (target : Ident) (expr : Expr)
  | cond (span : Span) (cond : Expr) (yes : Block) (no : Option Block)
  | loop (span : Span) (cond : Expr) (body : Block)
  | expand (expansion : Expansion)
  | leave (span : Span)
  | next (span : Span)
  | give (span : Span) (expr : Option Expr)
  | assert (span : Span) (expr : Expr)
  | expr (expr : Expr)

structure Block where
  span : Span
  stmts : List Stmt

structure CellDef where
  span : Span
  name : Ident
  params : List TemplateParam
  args : List Param
  ret : Option TypeRef
  body : Block

/-- A statement that is replaced at compile time by one copy of its body for each element of its
range. -/
structure Expansion where
  span : Span
  keyword : Span
  init : Option Init
  var : LoopVar
  range : Expr
  body : Block
  /-- How many template scopes enclose it; unknown until it is first checked, and fixed then. -/
  depth : Option Nat
  state : Unrolling

inductive Unrolling
  /-- Not looked at yet. -/
  | pending
  /-- The number of copies depends on a template parameter further out. -/
  | deferred
  /-- There are no elements. -/
  | empty
  /-- One copy for each element; `binding` evaluates the range once, before them. -/
  | unrolled (binding : Option ValDecl) (copies : List Copy)

structure Copy where
  index : Nat
  body : Block

end

abbrev Program := List Stmt

namespace Stmt

def span : Stmt → Span
  | typeAlias s _ _ _ | trait s _ | assign s _ _ | cond s _ _ _ | loop s _ _ | leave s | next s
  | give s _ | assert s _ => s
  | record d => d.span
  | cell c => c.span
  | val d => d.span
  | expand x => x.span
  | expr e => e.span

end Stmt

namespace CellDef

def isGeneric (c : CellDef) : Bool := !c.params.isEmpty

end CellDef

namespace Unrolling

def copies : Unrolling → List Copy
  | unrolled _ cs => cs
  | _ => []

end Unrolling

end Unroll

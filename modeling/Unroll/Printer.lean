import Unroll.Syntax
import Unroll.Token
import Unroll.Text.Escape
/-! # The canonical text of a tree

Printing goes in two steps: a tree becomes tokens and single spaces between them, laid out in lines,
and the lines become text.  The second step knows nothing of the language; the first decides on
parentheses, from how tightly the place of an expression binds.

A program that has been unrolled can be printed with the copies below each expansion, under comments
that tell which copy it is.
-/
namespace Unroll

inductive Piece
  | token (kind : TokenKind)
  | space
deriving DecidableEq, Repr

inductive PrintedLine
  | code (indent : Nat) (pieces : List Piece)
  | comment (indent : Nat) (text : String)
  | gap
deriving Repr

namespace TokenKind

def quoted (quote : Char) (cs : List Char) : String :=
  String.ofList (quote :: Text.encode quote cs ++ [quote])

/-- How a token is written; layout marks have no text of their own. -/
def spelling : TokenKind → String
  | keyword k => k.spelling
  | symbol s => s.spelling
  | name n => n
  | int v => toString v
  | char c => quoted '\'' [c]
  | text s => quoted '"' s.toList
  | newline | indent | dedent | eof => ""

end TokenKind

namespace Piece

def text : Piece → String
  | token k => k.spelling
  | space => " "

def render (pieces : List Piece) : String := pieces.foldl (fun out p => out ++ p.text) ""

end Piece

namespace PrintedLine

def indentation : String := "    "

def write (out : String) : PrintedLine → String
  | code n ps => (ps.foldl (fun out p => out ++ p.text) (indented out n)).push '\n'
  | comment n s => (indented out n ++ "# " ++ s).push '\n'
  | gap => out.push '\n'
where
  indented (out : String) : Nat → String
    | 0 => out
    | n + 1 => indented (out ++ indentation) n

def render (lines : List PrintedLine) : String := lines.foldl write ""

end PrintedLine

/-! ## How tightly places bind -/

inductive Prec
  | lowest | or | and | comparison | sum | product | unary | suffix
deriving DecidableEq, Repr

namespace Prec

def rank : Prec → Nat
  | lowest => 0
  | or => 1
  | and => 2
  | comparison => 3
  | sum => 4
  | product => 5
  | unary => 6
  | suffix => 7

/-- The next tighter level: the right operand of a left-associative operator stands there. -/
def tighter : Prec → Prec
  | lowest => or
  | or => and
  | and => comparison
  | comparison => sum
  | sum => product
  | product => unary
  | unary => suffix
  | suffix => suffix

end Prec

def BinOp.prec : BinOp → Prec
  | .or => .or
  | .and => .and
  | .eq | .ne | .lt | .gt | .le | .ge => .comparison
  | .add | .sub => .sum
  | .mul | .div | .rem => .product

def UnaryOp.symbol : UnaryOp → Symbol
  | .neg => .minus
  | .not => .bang

def BinOp.symbol : BinOp → Symbol
  | .add => .plus
  | .sub => .minus
  | .mul => .star
  | .div => .slash
  | .rem => .percent
  | .eq => .eq
  | .ne => .ne
  | .lt => .lt
  | .gt => .gt
  | .le => .le
  | .ge => .ge
  | .and => .andAnd
  | .or => .orOr

/-! ## Tokens of expressions and types -/

namespace Print

def sym (s : Symbol) : Piece := .token (.symbol s)

def word (k : Keyword) : Piece := .token (.keyword k)

def name (n : String) : Piece := .token (.name n)

/-- Wraps what binds less tightly than its place. -/
def wrap (place own : Prec) (ps : List Piece) : List Piece :=
  if own.rank < place.rank then sym .lparen :: ps ++ [sym .rparen] else ps

def commaSeparated : List (List Piece) → List Piece
  | [] => []
  | [ps] => ps
  | ps :: rest => ps ++ sym .comma :: .space :: commaSeparated rest

/-- A negative number is written as the negation it reads back as. -/
def int (place : Prec) (value : Int) : List Piece :=
  if value < 0 then wrap place .unary [sym .minus, .token (.int value.natAbs)]
  else [.token (.int value.natAbs)]

mutual

def expr (place : Prec) : Expr → List Piece
  | .name _ id => [name id.name]
  | .int _ v => int place v
  | .char _ c => [.token (.char c)]
  | .bool _ b => [word (if b then .trueWord else .falseWord)]
  | .text _ s => [.token (.text s)]
  | .list _ items => sym .lbrace :: commaSeparated (exprs items) ++ [sym .rbrace]
  | .array _ items => sym .lbracket :: commaSeparated (exprs items) ++ [sym .rbracket]
  | .record _ type [] => [name type.name, .space, sym .lbrace, sym .rbrace]
  | .record _ type (f :: fs) =>
    name type.name :: .space :: sym .lbrace :: .space :: commaSeparated (fields (f :: fs)) ++
      [.space, sym .rbrace]
  | .unary _ op e => wrap place .unary (sym op.symbol :: expr .unary e)
  | .binary _ l op r =>
    wrap place op.prec
      (expr op.prec l ++ .space :: sym op.symbol :: .space :: expr op.prec.tighter r)
  | .member _ base member => expr .suffix base ++ [sym .dot, name member.name]
  | .index _ base index =>
    expr .suffix base ++ sym .lbracket :: expr .lowest index ++ [sym .rbracket]
  | .call _ callee [] args =>
    name callee.name :: sym .lparen :: commaSeparated (exprs args) ++ [sym .rparen]
  | .call _ callee (g :: gs) args =>
    name callee.name :: sym .pathSep :: sym .lt :: commaSeparated (typeArgs (g :: gs)) ++
      sym .gt :: sym .lparen :: commaSeparated (exprs args) ++ [sym .rparen]
  | .listSelect _ list index =>
    name "select" :: sym .lparen :: commaSeparated [expr .lowest list, expr .lowest index] ++
      [sym .rparen]
  | .memberSelect _ base members index =>
    name "select_member" :: sym .lparen :: commaSeparated
      [expr .lowest base,
        sym .lbracket :: commaSeparated (members.map fun m => [name m.name]) ++ [sym .rbracket],
        expr .lowest index] ++
      [sym .rparen]

def exprs : List Expr → List (List Piece)
  | [] => []
  | e :: es => expr .lowest e :: exprs es

def fields : List (Ident × Expr) → List (List Piece)
  | [] => []
  | (key, value) :: fs =>
    (name key.name :: sym .colon :: .space :: expr .lowest value) :: fields fs

def typeRef : TypeRef → List Piece
  | .named _ id [] => [name id.name]
  | .named _ id (a :: as) =>
    name id.name :: sym .lt :: commaSeparated (typeArgs (a :: as)) ++ [sym .gt]
  | .array _ elem len =>
    sym .lbracket :: typeRef elem ++ sym .semi :: .space :: expr .lowest len ++ [sym .rbracket]

def typeArg : TypeArg → List Piece
  | .type t => typeRef t
  | .value e => expr .sum e

def typeArgs : List TypeArg → List (List Piece)
  | [] => []
  | a :: as => typeArg a :: typeArgs as

end

/-! ## Lines of statements -/

def typeNote : Option TypeRef → List Piece
  | some t => sym .colon :: .space :: typeRef t
  | none => []

/-- A declared variable up to its type. -/
def declared (mutable : Bool) (id : Ident) (type : Option TypeRef) : List Piece :=
  word .val :: .space :: (if mutable then [word .mut, .space] else []) ++
    name id.name :: typeNote type

def valDecl (d : ValDecl) : List Piece :=
  declared d.mutable d.name d.type ++ .space :: sym .assign :: .space :: expr .lowest d.expr

def templateParam (p : TemplateParam) : List Piece :=
  match p.kind with
  | .type none => [name p.name.name]
  | .type (some bound) => [name p.name.name, sym .colon, .space, name bound.name]
  | .const t => word .const :: .space :: name p.name.name :: sym .colon :: .space :: typeRef t

def templateParams (ps : List TemplateParam) : List Piece :=
  if ps.isEmpty then []
  else sym .lt :: commaSeparated (ps.map templateParam) ++ [sym .gt]

def param (p : Param) : List Piece :=
  name p.name.name :: sym .colon :: .space :: (if p.mutable then [word .mut, .space] else []) ++
    typeRef p.type

def recordField (f : RecordField) : List Piece :=
  (if f.hidden then [word .priv, .space] else []) ++
    name f.name.name :: sym .colon :: .space :: typeRef f.type

def recordDef (d : RecordDef) : List Piece :=
  [word .type, .space, name d.name.name, .space, sym .assign, .space, word .record, .space,
    sym .lbrace] ++
  (if d.fields.isEmpty then [sym .rbrace]
  else .space :: commaSeparated (d.fields.map recordField) ++ [.space, sym .rbrace])

def cellHead (c : CellDef) : List Piece :=
  word .cell :: .space :: name c.name.name :: templateParams c.params ++
    sym .lparen :: commaSeparated (c.args.map param) ++ sym .rparen ::
    (match c.ret with
      | some t => .space :: sym .arrow :: .space :: typeRef t
      | none => []) ++
    [sym .colon]

def init : Option Init → List Piece
  | some (.val d) => valDecl d ++ [sym .semi, .space]
  | some (.expr e) => expr .lowest e ++ [sym .semi, .space]
  | none => []

def expansionHead (x : Expansion) : List Piece :=
  word .expand :: .space :: init x.init ++ declared x.var.mutable x.var.name x.var.type ++
    .space :: word .inWord :: .space :: expr .lowest x.range ++ [sym .colon]

mutual

def stmt (unrolled : Bool) (indent : Nat) : Stmt → List PrintedLine
  | .typeAlias _ id params target =>
    [.code indent (word .type :: .space :: name id.name :: templateParams params ++
      .space :: sym .assign :: .space :: typeRef target)]
  | .trait _ id => [.code indent [word .trait, .space, name id.name]]
  | .record d => [.code indent (recordDef d)]
  | .cell c => cell unrolled indent c
  | .val d => [.code indent (valDecl d)]
  | .assign _ target e =>
    [.code indent (name target.name :: .space :: sym .assign :: .space :: expr .lowest e)]
  | .cond _ e yes none =>
    .code indent (word .ifWord :: .space :: expr .lowest e ++ [sym .colon]) ::
      block unrolled (indent + 1) yes
  | .cond _ e yes (some no) =>
    .code indent (word .ifWord :: .space :: expr .lowest e ++ [sym .colon]) ::
      block unrolled (indent + 1) yes ++
      .code indent [word .elseWord, sym .colon] :: block unrolled (indent + 1) no
  | .loop _ e body =>
    .code indent (word .whileWord :: .space :: expr .lowest e ++ [sym .colon]) ::
      block unrolled (indent + 1) body
  | .expand x => expansion unrolled indent x
  | .leave _ => [.code indent [word .breakWord]]
  | .next _ => [.code indent [word .continueWord]]
  | .give _ none => [.code indent [word .returnWord]]
  | .give _ (some e) => [.code indent (word .returnWord :: .space :: expr .lowest e)]
  | .assert _ e => [.code indent (word .assert :: .space :: expr .lowest e)]
  | .expr e => [.code indent (expr .lowest e)]

def stmts (unrolled : Bool) (indent : Nat) : List Stmt → List PrintedLine
  | [] => []
  | s :: ss => stmt unrolled indent s ++ stmts unrolled indent ss

def block (unrolled : Bool) (indent : Nat) : Block → List PrintedLine
  | ⟨_, ss⟩ => stmts unrolled indent ss

def cell (unrolled : Bool) (indent : Nat) : CellDef → List PrintedLine
  | ⟨span, id, params, args, ret, body⟩ =>
    .code indent (cellHead ⟨span, id, params, args, ret, body⟩) :: block unrolled (indent + 1) body

def expansion (unrolled : Bool) (indent : Nat) : Expansion → List PrintedLine
  | ⟨span, keyword, first, var, range, body, depth, state⟩ =>
    .code indent (expansionHead ⟨span, keyword, first, var, range, body, depth, state⟩) ::
      block unrolled (indent + 1) body ++
      if unrolled then unrolling indent state else []

def unrolling (indent : Nat) : Unrolling → List PrintedLine
  | .pending => []
  | .deferred => [.comment indent "deferred until instantiation"]
  | .empty => [.comment indent "empty range"]
  | .unrolled binding cs =>
    (match binding with
      | some d => [.comment indent ("range: " ++ Piece.render (valDecl d))]
      | none => []) ++
    copies indent cs

def copies (indent : Nat) : List Copy → List PrintedLine
  | [] => []
  | c :: cs => copy indent c ++ copies indent cs

def copy (indent : Nat) : Copy → List PrintedLine
  | ⟨index, body⟩ =>
    .comment indent ("[" ++ toString index ++ "]") :: block true (indent + 1) body

end

/-- Top-level statements are set apart by an empty line. -/
def program (unrolled : Bool) : Program → List PrintedLine
  | [] => []
  | [s] => stmt unrolled 0 s
  | s :: ss => stmt unrolled 0 s ++ .gap :: program unrolled ss

end Print

/-- The canonical text of an expression. -/
def Expr.print (e : Expr) : String := Piece.render (Print.expr .lowest e)

/-- The canonical text of a written type. -/
def TypeRef.print (t : TypeRef) : String := Piece.render (Print.typeRef t)

namespace Program

/-- The canonical text of a program, without what unrolling made of it. -/
def print (p : Program) : String := PrintedLine.render (Print.program false p)

/-- The text of a program with the copies of every unrolled expansion. -/
def printUnrolled (p : Program) : String := PrintedLine.render (Print.program true p)

end Program

end Unroll
